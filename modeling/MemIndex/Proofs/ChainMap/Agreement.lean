import MemIndex.Proofs.ChainMap.Simulation

/- Operation by operation a plain map answers as a dictionary does, whatever its tables look like,
   when the hash function does not tell equal keys apart. -/
namespace MemIndex.ChainMap

variable {K V : Type} [BEq K] {hash : K → UInt64} {dict : Dictionary K V}

section Pairs

theorem amend_absent {key : K} (absent : ∀ pair ∈ dict, (pair.1 == key) = false) (value : V) :
    dict.map (Plain.amend key value) = dict := by
  have same : ∀ pair ∈ dict, Plain.amend key value pair = pair := by
    intro pair member
    exact if_neg (Bool.eq_false_iff.mp (absent pair member))
  rw [List.map_congr_left same, List.map_id']

theorem lookup_absent {key : K} (absent : dict.lookup key = none) :
    ∀ pair ∈ dict, (pair.1 == key) = false := fun pair member =>
  Bool.eq_false_iff.mpr (List.find?_eq_none.mp absent pair member)

theorem remove_absent {key : K} (absent : dict.lookup key = none) : dict.remove key = dict :=
  List.eraseP_of_forall_not fun pair member => List.find?_eq_none.mp absent pair member

theorem amend_distinct [EquivBEq K] {key : K} {pair : K × V} {rest : Dictionary K V}
    (distinct : Distinct (pair :: rest)) (matched : (pair.1 == key) = true) (value : V) :
    (pair :: rest).map (Plain.amend key value) = (pair.1, value) :: rest := by
  have absent : ∀ other ∈ rest, (other.1 == key) = false := by
    intro other member
    rw [Bool.eq_false_iff]
    intro same
    have apart := (List.pairwise_cons.mp distinct).1 other member
    rw [BEq.trans matched (BEq.symm same)] at apart
    cases apart
  rw [List.map_cons, amend_absent absent, Plain.amend, if_pos matched]

end Pairs

namespace Plain

/-- The pairs of the dictionary, in a layout that is in order. -/
structure Carries (hash : K → UInt64) (p : Plain K V) (dict : Dictionary K V) : Prop where
  sound : p.Sound
  hash : p.hash = hash
  perm : p.entries.Perm dict

variable {p : Plain K V}

theorem carries_blank {config : Config} (valid : config.Valid) (hash : K → UInt64) :
    Carries hash (blank config.rounded hash : Plain K V) [] := by
  refine ⟨⟨blank_tidy valid hash, ?_⟩, rfl, List.Perm.of_eq (entries_blank _ _)⟩
  rw [entries_blank]
  exact List.Pairwise.nil

theorem carries_clear (carries : p.Carries hash dict) : p.clear.Carries hash [] := by
  refine ⟨⟨clear_tidy carries.sound.toTidy, ?_⟩, carries.hash,
    List.Perm.of_eq (entries_clear p)⟩
  rw [entries_clear]
  exact List.Pairwise.nil

variable [EquivBEq K]

theorem carries_resized {q : Plain K V} (carries : p.Carries hash dict) (resized : Resized p q) :
    q.Carries hash dict :=
  ⟨sound_of_resized resized carries.sound, resized.hash.trans carries.hash,
    resized.perm.trans carries.perm⟩

theorem carries_upkeep (carries : p.Carries hash dict) : p.upkeep.1.Carries hash dict :=
  carries_resized carries (resized_upkeep carries.sound.toTidy)

theorem carries_settle (carries : p.Carries hash dict) : p.settle.1.Carries hash dict :=
  carries_resized carries (resized_relocate carries.sound.toTidy _)

section Respecting

variable (respects : Respects hash) (carries : p.Carries hash dict)

include respects carries

theorem find?_carried (key : K) : p.find? key = dict.lookup key := by
  have itsHash : Respects p.hash := by
    rw [carries.hash]
    exact respects
  rw [find?_eq_entries itsHash carries.sound, find?_perm carries.sound.distinct carries.perm]
  rfl

theorem replace_carries (key : K) (value : V) :
    (p.replace key value).Carries hash (dict.map (amend key value)) := by
  cases found : p.find? key with
  | none =>
    have absent := (find?_carried respects carries key).symm.trans found
    rw [replace_absent found, amend_absent (lookup_absent absent)]
    exact carries
  | some pair =>
    have matched : (pair.1 == key) = true := by
      rw [find?_carried respects carries] at found
      exact List.find?_some (p := fun x : K × V => x.1 == key) found
    have first := discard_perm found
    have distinct := (distinct_perm first).mpr carries.sound.distinct
    refine ⟨replace_sound carries.sound found value, ?_, ?_⟩
    · exact (hash_whereFound key _).trans carries.hash
    · calc (p.replace key value).entries
        _ |>.Perm ((pair.1, value) :: (p.discard key).entries) := replace_perm found value
        _ = (pair :: (p.discard key).entries).map (amend key value) :=
          (amend_distinct distinct matched value).symm
        _ |>.Perm (dict.map (amend key value)) := (first.trans carries.perm).map _

theorem discard_carries (key : K) : (p.discard key).Carries hash (dict.remove key) := by
  cases found : p.find? key with
  | none =>
    have absent := (find?_carried respects carries key).symm.trans found
    rw [discard_absent found, remove_absent absent]
    exact carries
  | some pair =>
    have held := (find?_carried respects carries key).symm.trans found
    refine ⟨discard_sound carries.sound found, ?_, ?_⟩
    · exact (hash_whereFound key _).trans carries.hash
    · exact (((discard_perm found).trans carries.perm).trans
        (Rows.cons_eraseP_perm held).symm).cons_inv

theorem insert_carries (key : K) (value : V) :
    Matching (fun expected actual => actual.1 = expected.1 ∧ actual.2.Carries hash expected.2)
      (dict.insert key value) (p.insert key value) := by
  have after := carries_upkeep carries
  have found := find?_carried respects after key
  have length := after.perm.length_eq
  cases held : dict.lookup key with
  | some pair =>
    simp only [Dictionary.insert, insert, found, held]
    exact ⟨rfl, replace_carries respects after key value⟩
  | none =>
    rw [held] at found
    simp only [Dictionary.insert, insert, found, held, length]
    by_cases room : dict.length < Arena.maxSlots
    · rw [if_pos room, if_pos room]
      have itsHash : Respects p.upkeep.1.hash := by
        rw [after.hash]
        exact respects
      refine ⟨rfl, put_sound itsHash after.sound found value, ?_, ?_⟩
      · exact (hash_put key value).trans after.hash
      · exact (put_perm after.sound.toTidy key value).trans (after.perm.cons _)
    · rw [if_neg room, if_neg room]
      rfl

omit carries in
theorem insertAll_carries (carries : p.Carries hash dict) (pairs : List (K × V)) :
    Matching (fun expected actual => actual.Carries hash expected)
      (dict.insertAll pairs) (p.insertAll pairs) := by
  induction pairs generalizing p dict with
  | nil => exact carries
  | cons pair rest ih =>
    simp only [Dictionary.insertAll, insertAll, List.foldlM_cons, bind_assoc]
    apply matching_bind (insert_carries respects carries pair.1 pair.2)
    intro expected actual step
    exact ih step.2

theorem plainly_agrees (op : Op K V) :
    Matching (fun expected actual => expected.1.Agrees actual.1 ∧
      actual.2.Carries hash expected.2) (op.meaning dict) (op.plainly p) := by
  have after := carries_upkeep carries
  have found := find?_carried respects after
  have settled := carries_settle carries
  have listed : dict.Perm p.settle.1.active.flatten := by
    have all := settled.perm.symm
    rwa [entries, target, settle_stable, List.flatten_nil, List.append_nil] at all
  cases op with
  | insert key value =>
    apply matching_bind (insert_carries respects carries key value)
    intro expected actual step
    exact ⟨congrArg Answer.value step.1.symm, step.2⟩
  | get key =>
    refine ⟨?_, after⟩
    rw [found]
    rfl
  | getEntry key =>
    refine ⟨?_, after⟩
    rw [found]
    rfl
  | replace key value =>
    refine ⟨?_, replace_carries respects after key value⟩
    rw [found]
    rfl
  | contains key =>
    refine ⟨?_, after⟩
    rw [found]
    rfl
  | peek key =>
    refine ⟨?_, carries⟩
    rw [find?_carried respects carries]
    rfl
  | remove key =>
    refine ⟨?_, discard_carries respects after key⟩
    rw [found]
    rfl
  | erase key =>
    refine ⟨?_, discard_carries respects after key⟩
    rw [found]
    rfl
  | count => exact ⟨congrArg Answer.count carries.perm.length_eq.symm, carries⟩
  | extend pairs =>
    exact matching_bind (insertAll_carries respects carries pairs) fun _ _ last => ⟨rfl, last⟩
  | ofList pairs =>
    have start : Carries hash (blank ({} : Config).rounded hash : Plain K V) [] :=
      carries_blank Config.default_valid hash
    simp only [Op.plainly, carries.hash]
    exact matching_bind (insertAll_carries respects start pairs) fun _ _ last => ⟨rfl, last⟩
  | clear => exact ⟨rfl, carries_clear carries⟩
  | rehash buckets =>
    have started := resized_startResize carries.sound.toTidy
    exact ⟨trivial, carries_resized carries
      (resized_trans started (resized_relocate started.tidy buckets))⟩
  | settle => exact ⟨rfl, settled⟩
  | toList => exact ⟨listed, settled⟩
  | keys => exact ⟨listed.map _, settled⟩
  | values => exact ⟨listed.map _, settled⟩
  | copy => exact ⟨rfl, carries⟩

end Respecting

end Plain

end MemIndex.ChainMap
