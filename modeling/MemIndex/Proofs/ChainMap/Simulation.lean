import MemIndex.Proofs.ChainMap.History
import MemIndex.Proofs.ChainMap.Removing
import MemIndex.Proofs.ChainMap.Walking

/- Operation by operation a map does what its plain map does. The answers are the same, orders
   included, and nothing fails but an insertion into a full store. The hash function may be any,
   and so may the comparison of keys. -/
namespace MemIndex.ChainMap

variable {K V : Type}

section Meaning

variable [BEq K]

namespace Plain

/-- There is room for as many pairs as a store has slots. -/
def insert (p : Plain K V) (key : K) (value : V) : Except Fault (Option V × Plain K V) :=
  let p := p.upkeep.1
  match p.find? key with
  | some pair => .ok (some pair.2, p.replace key value)
  | none => if p.entries.length < Arena.maxSlots then .ok (none, p.put key value)
    else .error .exhausted

def insertAll (p : Plain K V) (pairs : List (K × V)) : Except Fault (Plain K V) :=
  pairs.foldlM (fun p pair => do return (← p.insert pair.1 pair.2).2) p

end Plain

def Op.plainly : Op K V → Plain K V → Except Fault (Answer K V × Plain K V)
  | .insert key value, p => do
    let (before, p) ← p.insert key value
    return (.value before, p)
  | .get key, p =>
    return (.found (required ((p.upkeep.1.find? key).map (·.2))), p.upkeep.1)
  | .getEntry key, p => return (.entry (required (p.upkeep.1.find? key)), p.upkeep.1)
  | .replace key value, p =>
    return (.found (required ((p.upkeep.1.find? key).map (·.2))), p.upkeep.1.replace key value)
  | .contains key, p => return (.truth (p.upkeep.1.find? key).isSome, p.upkeep.1)
  | .peek key, p => return (.value ((p.find? key).map (·.2)), p)
  | .remove key, p =>
    return (.value ((p.upkeep.1.find? key).map (·.2)), p.upkeep.1.discard key)
  | .erase key, p => return (.truth (p.upkeep.1.find? key).isSome, p.upkeep.1.discard key)
  | .count, p => return (.count p.entries.length, p)
  | .extend pairs, p => do return (.done, ← p.insertAll pairs)
  | .ofList pairs, p => do
    return (.done, ← (Plain.blank ({} : Config).rounded p.hash).insertAll pairs)
  | .clear, p => return (.done, p.clear)
  | .rehash buckets, p =>
    let resized := (p.startResize.1.relocate buckets).1
    return (.running resized.moving.isSome, resized)
  | .settle, p => return (.done, p.settle.1)
  | .toList, p => return (.pairs p.settle.1.active.flatten, p.settle.1)
  | .keys, p => return (.keys (p.settle.1.active.flatten.map (·.1)), p.settle.1)
  | .values, p => return (.values (p.settle.1.active.flatten.map (·.2)), p.settle.1)
  | .copy, p => return (.done, p)

end Meaning

/-- The map lies in its store as this plain map says, and that one is in order. -/
structure Depicts (map : ChainMap K V) (p : Plain K V) : Prop where
  represents : Represents map p
  tidy : p.Tidy

variable {map : ChainMap K V} {p : Plain K V}

section Whole

theorem upkeep_depicts (depicts : Depicts map p) :
    ∃ next, map.upkeep = .ok (next, p.upkeep.2) ∧ Depicts next p.upkeep.1 := by
  obtain ⟨next, done, after⟩ := upkeep_refines depicts.represents depicts.tidy
  exact ⟨next, done, after, (Plain.resized_upkeep depicts.tidy).tidy⟩

theorem rehash_depicts (depicts : Depicts map p) (buckets : Nat) :
    ∃ outcome, map.rehash buckets = .ok outcome ∧
      outcome.answer = (p.startResize.1.relocate buckets).1.moving.isSome ∧
      outcome.events = p.startResize.2 ++ (p.startResize.1.relocate buckets).2 ∧
      Depicts outcome.state (p.startResize.1.relocate buckets).1 := by
  obtain ⟨outcome, done, answer, events, after⟩ :=
    rehash_refines depicts.represents depicts.tidy buckets
  exact ⟨outcome, done, answer, events, after,
    Plain.relocate_tidy (Plain.startResize_tidy depicts.tidy) buckets⟩

theorem settle_depicts (depicts : Depicts map p) :
    ∃ outcome, map.settle = .ok outcome ∧ outcome.events = p.settle.2 ∧
      Depicts outcome.state p.settle.1 := by
  obtain ⟨outcome, done, events, after⟩ := settle_refines depicts.represents depicts.tidy
  exact ⟨outcome, done, events, after, Plain.relocate_tidy depicts.tidy _⟩

theorem toList_depicts (depicts : Depicts map p) :
    ∃ outcome, map.toList = .ok outcome ∧ outcome.answer = p.settle.1.active.flatten ∧
      outcome.events = p.settle.2 ∧ Depicts outcome.state p.settle.1 := by
  obtain ⟨outcome, done, listed, events, after⟩ :=
    toList_refines depicts.represents depicts.tidy
  exact ⟨outcome, done, listed, events, after, Plain.relocate_tidy depicts.tidy _⟩

theorem clear_depicts (depicts : Depicts map p) :
    ∃ next, map.clear = .ok next ∧ Depicts next p.clear := by
  obtain ⟨next, done, after⟩ := clear_refines depicts.represents depicts.tidy
  exact ⟨next, done, after, Plain.clear_tidy depicts.tidy⟩

theorem copy_depicts (depicts : Depicts map p) : Depicts map.copy p :=
  ⟨copy_refines depicts.represents, depicts.tidy⟩

theorem ofConfig_valid {config : Config} (valid : config.Valid) (hash : K → UInt64) :
    (ofConfig config hash : Except ConfigError (ChainMap K V)) = .ok (build config hash) := by
  rw [Config.Valid] at valid
  unfold ofConfig
  rw [valid]
  rfl

theorem made_of_ofConfig {config : Config} {hash : K → UInt64}
    (built : ofConfig config hash = .ok map) : config.Valid ∧ map = build config hash := by
  have valid : config.Valid := by
    cases held : config.validate with
    | ok _ => exact held
    | error fault =>
      unfold ofConfig at built
      rw [held] at built
      cases built
  rw [ofConfig_valid valid] at built
  exact ⟨valid, (Except.ok.inj built).symm⟩

theorem build_reachable [BEq K] {config : Config} (valid : config.Valid) (hash : K → UInt64) :
    Reachable hash (build config hash : ChainMap K V) :=
  .made (ofConfig_valid valid hash)

theorem build_depicts {config : Config} (valid : config.Valid) (hash : K → UInt64) :
    Depicts (build config hash : ChainMap K V) (Plain.blank config.rounded hash) :=
  ⟨build_refines config hash, Plain.blank_tidy valid hash⟩

theorem len_depicts (depicts : Depicts map p) : map.len = p.entries.length :=
  len_of_represents depicts.represents

theorem hash_depicts (depicts : Depicts map p) : map.hash = p.hash := by
  obtain ⟨⟨active, target, laid, rfl⟩, -⟩ := depicts
  rfl

end Whole

variable [BEq K]

section Lookups

theorem entryOf?_depicts (depicts : Depicts map p) (key : K) :
    map.entryOf? key = .ok (p.find? key) := entryOf?_refines depicts.represents depicts.tidy key

theorem slotOf?_depicts (depicts : Depicts map p) (key : K) :
    ∃ slot, map.slotOf? key = .ok slot ∧ slot.isSome = (p.find? key).isSome := by
  obtain ⟨⟨active, target, laid, rfl⟩, tidy⟩ := depicts
  refine ⟨_, slotOf?_ok laid tidy key, ?_⟩
  rw [find?_plainOf laid]
  simp

theorem slotOf?_absent (depicts : Depicts map p) {key : K} (absent : p.find? key = none) :
    map.slotOf? key = .ok none := by
  obtain ⟨slot, located, some⟩ := slotOf?_depicts depicts key
  rw [absent, Option.isSome_none, Option.isSome_eq_false_iff, Option.isNone_iff_eq_none] at some
  rw [located, some]

theorem peek_depicts (depicts : Depicts map p) (key : K) :
    map.peek key = .ok ((p.find? key).map (·.2)) := by
  simp [peek, entryOf?_depicts depicts]

variable (depicts : Depicts map p) (key : K)

include depicts

theorem getEntry_depicts : ∃ outcome, map.getEntry key = .ok outcome ∧
    outcome.answer = required (p.upkeep.1.find? key) ∧ outcome.events = p.upkeep.2 ∧
    Depicts outcome.state p.upkeep.1 := by
  obtain ⟨next, done, after⟩ := upkeep_depicts depicts
  have found := entryOf?_depicts after key
  cases held : p.upkeep.1.find? key with
  | none =>
    rw [held] at found
    exact ⟨⟨.error .notFound, next, p.upkeep.2⟩, by simp [getEntry, done, found], rfl, rfl,
      after⟩
  | some pair =>
    rw [held] at found
    exact ⟨⟨.ok pair, next, p.upkeep.2⟩, by simp [getEntry, done, found], rfl, rfl, after⟩

theorem get_depicts : ∃ outcome, map.get key = .ok outcome ∧
    outcome.answer = required ((p.upkeep.1.find? key).map (·.2)) ∧
    outcome.events = p.upkeep.2 ∧ Depicts outcome.state p.upkeep.1 := by
  obtain ⟨outcome, done, answer, events, after⟩ := getEntry_depicts depicts key
  refine ⟨{ outcome with answer := outcome.answer.map (·.2) }, by simp [get, done], ?_, events,
    after⟩
  rw [answer]
  cases p.upkeep.1.find? key <;> rfl

theorem contains_depicts : ∃ outcome, map.contains key = .ok outcome ∧
    outcome.answer = (p.upkeep.1.find? key).isSome ∧ outcome.events = p.upkeep.2 ∧
    Depicts outcome.state p.upkeep.1 := by
  obtain ⟨next, done, after⟩ := upkeep_depicts depicts
  obtain ⟨slot, found, some⟩ := slotOf?_depicts after key
  exact ⟨⟨slot.isSome, next, p.upkeep.2⟩, by simp [contains, done, found], some, rfl, after⟩

end Lookups

section Changes

theorem replace_depicts (depicts : Depicts map p) (key : K) (value : V) :
    ∃ outcome, map.replace key value = .ok outcome ∧
      outcome.answer = required ((p.upkeep.1.find? key).map (·.2)) ∧
      outcome.events = p.upkeep.2 ∧ Depicts outcome.state (p.upkeep.1.replace key value) := by
  obtain ⟨next, done, after⟩ := upkeep_depicts depicts
  cases found : p.upkeep.1.find? key with
  | none =>
    refine ⟨⟨.error .notFound, next, p.upkeep.2⟩,
      by simp [replace, done, slotOf?_absent after found], rfl, rfl, ?_⟩
    rw [Plain.replace_absent found]
    exact after
  | some pair =>
    obtain ⟨slot, entry, store, located, read, same, written, last⟩ :=
      replace_refines after.represents after.tidy found value
    have before : entry.value = pair.2 := congrArg (·.2) same
    refine ⟨⟨.ok entry.value, { next with store }, p.upkeep.2⟩,
      by simp [replace, done, located, read, written], ?_, rfl, last,
      Plain.replace_tidy after.tidy key value⟩
    rw [before]
    rfl

theorem insert_depicts (depicts : Depicts map p) (key : K) (value : V) :
    Matching (fun expected outcome => outcome.answer = expected.1 ∧
        outcome.events = p.upkeep.2 ∧ Depicts outcome.state expected.2)
      (p.insert key value) (map.insert key value) := by
  obtain ⟨next, done, after⟩ := upkeep_depicts depicts
  have length := len_depicts after
  cases found : p.upkeep.1.find? key with
  | some pair =>
    obtain ⟨slot, entry, store, located, read, same, written, last⟩ :=
      replace_refines after.represents after.tidy found value
    have before : entry.value = pair.2 := congrArg (·.2) same
    have ran : map.insert key value =
        .ok ⟨some entry.value, { next with store }, p.upkeep.2⟩ := by
      simp [insert, done, located, read, written]
    rw [ran]
    simp only [Plain.insert, found]
    exact ⟨congrArg some before, rfl, last, Plain.replace_tidy after.tidy key value⟩
  | none =>
    have missing := slotOf?_absent after found
    simp only [Plain.insert, found]
    by_cases room : p.upkeep.1.entries.length < Arena.maxSlots
    · obtain ⟨slot, store, last, stored, linked, placed⟩ :=
        put_refines after.represents after.tidy (by omega) key value
      have ran : map.insert key value = .ok ⟨none, last, p.upkeep.2⟩ := by
        simp [insert, done, missing, stored, linked]
      rw [ran, if_pos room]
      exact ⟨rfl, rfl, placed, Plain.put_tidy after.tidy key value⟩
    · obtain ⟨⟨active, target, laid, same⟩, -⟩ := after
      have full : next.store.len = Arena.maxSlots := by
        have most := Arena.len_le_maxSlots laid.owns.sound
        unfold len at length
        omega
      have refused := Arena.insert_exhausted laid.owns.sound full ⟨key, value, none⟩
      have ran : map.insert key value = .error .exhausted := by
        simp [insert, done, missing, refused]
      rw [ran, if_neg room]
      rfl

theorem remove_depicts (depicts : Depicts map p) (key : K) :
    ∃ outcome, map.remove key = .ok outcome ∧
      outcome.answer = (p.upkeep.1.find? key).map (·.2) ∧ outcome.events = p.upkeep.2 ∧
      Depicts outcome.state (p.upkeep.1.discard key) := by
  obtain ⟨next, done, after⟩ := upkeep_depicts depicts
  cases found : p.upkeep.1.find? key with
  | none =>
    refine ⟨⟨none, next, p.upkeep.2⟩, ?_, rfl, rfl, ?_⟩
    · simp [remove, done, unlink_absent after.represents after.tidy found]
    · rw [Plain.discard_absent found]
      exact after
  | some pair =>
    obtain ⟨slot, unlinked, entry, store, taken, released, same, last⟩ :=
      discard_refines after.represents after.tidy found
    have before : entry.value = pair.2 := congrArg (·.2) same
    refine ⟨⟨some entry.value, { unlinked with store }, p.upkeep.2⟩,
      by simp [remove, done, taken, released], ?_, rfl, last, Plain.discard_tidy after.tidy key⟩
    rw [before]
    rfl

theorem extend_depicts (depicts : Depicts map p) (pairs : List (K × V)) :
    Matching (fun expected outcome => Depicts outcome.state expected)
      (p.insertAll pairs) (map.extend pairs) := by
  induction pairs generalizing map p with
  | nil => exact depicts
  | cons pair rest ih =>
    obtain ⟨key, value⟩ := pair
    simp only [Plain.insertAll, List.foldlM_cons, extend, bind_assoc]
    apply matching_bind (insert_depicts depicts key value)
    intro expected outcome step
    exact matching_map (ih step.2.2) fun _ _ last => last

end Changes

def Alike (expected : Answer K V × Plain K V) (actual : Answer K V × ChainMap K V) : Prop :=
  expected.1 = actual.1 ∧ Depicts actual.2 expected.2

theorem op_alike (depicts : Depicts map p) (op : Op K V) :
    Matching Alike (op.plainly p) (op.run map) := by
  cases op with
  | insert key value =>
    apply matching_bind (insert_depicts depicts key value)
    intro expected outcome step
    exact ⟨congrArg Answer.value step.1.symm, step.2.2⟩
  | get key =>
    obtain ⟨outcome, done, answer, -, after⟩ := get_depicts depicts key
    simp only [Op.run, done, ok_bind]
    exact ⟨congrArg Answer.found answer.symm, after⟩
  | getEntry key =>
    obtain ⟨outcome, done, answer, -, after⟩ := getEntry_depicts depicts key
    simp only [Op.run, done, ok_bind]
    exact ⟨congrArg Answer.entry answer.symm, after⟩
  | replace key value =>
    obtain ⟨outcome, done, answer, -, after⟩ := replace_depicts depicts key value
    simp only [Op.run, done, ok_bind]
    exact ⟨congrArg Answer.found answer.symm, after⟩
  | contains key =>
    obtain ⟨outcome, done, answer, -, after⟩ := contains_depicts depicts key
    simp only [Op.run, done, ok_bind]
    exact ⟨congrArg Answer.truth answer.symm, after⟩
  | peek key =>
    simp only [Op.run, peek_depicts depicts, ok_bind]
    exact ⟨rfl, depicts⟩
  | remove key =>
    obtain ⟨outcome, done, answer, -, after⟩ := remove_depicts depicts key
    simp only [Op.run, done, ok_bind]
    exact ⟨congrArg Answer.value answer.symm, after⟩
  | erase key =>
    obtain ⟨outcome, done, answer, -, after⟩ := remove_depicts depicts key
    simp only [Op.run, erase, done, ok_bind]
    refine ⟨congrArg Answer.truth ?_, after⟩
    simp [answer]
  | count => exact ⟨congrArg Answer.count (len_depicts depicts).symm, depicts⟩
  | extend pairs =>
    exact matching_bind (extend_depicts depicts pairs) fun _ _ after => ⟨rfl, after⟩
  | ofList pairs =>
    have start : Depicts (build {} p.hash : ChainMap K V)
        (Plain.blank ({} : Config).rounded p.hash) := build_depicts Config.default_valid p.hash
    simp only [Op.run, ChainMap.ofList, hash_depicts depicts]
    exact matching_bind (extend_depicts start pairs) fun _ _ after => ⟨rfl, after⟩
  | clear =>
    obtain ⟨next, done, after⟩ := clear_depicts depicts
    simp only [Op.run, done, ok_bind]
    exact ⟨rfl, after⟩
  | rehash buckets =>
    obtain ⟨outcome, done, answer, -, after⟩ := rehash_depicts depicts buckets
    simp only [Op.run, done, ok_bind]
    exact ⟨congrArg Answer.running answer.symm, after⟩
  | settle =>
    obtain ⟨outcome, done, -, after⟩ := settle_depicts depicts
    simp only [Op.run, done, ok_bind]
    exact ⟨rfl, after⟩
  | toList =>
    obtain ⟨outcome, done, listed, -, after⟩ := toList_depicts depicts
    simp only [Op.run, done, ok_bind]
    exact ⟨congrArg Answer.pairs listed.symm, after⟩
  | keys =>
    obtain ⟨outcome, done, listed, -, after⟩ := toList_depicts depicts
    simp only [Op.run, keys, done, ok_bind]
    exact ⟨congrArg (fun all => Answer.keys (all.map (·.1))) listed.symm, after⟩
  | values =>
    obtain ⟨outcome, done, listed, -, after⟩ := toList_depicts depicts
    simp only [Op.run, values, done, ok_bind]
    exact ⟨congrArg (fun all => Answer.values (all.map (·.2))) listed.symm, after⟩
  | copy => exact ⟨rfl, copy_depicts depicts⟩

section Hashes

theorem hash_insert {before : Option V} {q : Plain K V} {key : K} {value : V}
    (done : p.insert key value = .ok (before, q)) : q.hash = p.hash := by
  simp only [Plain.insert] at done
  split at done
  · cases done
    exact (Plain.hash_whereFound key _).trans Plain.hash_upkeep
  · split at done
    · cases done
      exact (Plain.hash_put key value).trans Plain.hash_upkeep
    · cases done

theorem hash_insertAll {q : Plain K V} {pairs : List (K × V)}
    (done : p.insertAll pairs = .ok q) : q.hash = p.hash := by
  induction pairs generalizing p with
  | nil =>
    cases done
    rfl
  | cons pair rest ih =>
    rw [Plain.insertAll, List.foldlM_cons] at done
    cases first : p.insert pair.1 pair.2 with
    | error fault => simp [first] at done
    | ok step =>
      rw [first] at done
      exact (ih done).trans (hash_insert first)

theorem hash_plainly {op : Op K V} {answer : Answer K V} {q : Plain K V}
    (done : op.plainly p = .ok (answer, q)) : q.hash = p.hash := by
  cases op with
  | insert key value =>
    cases first : p.insert key value with
    | error fault => simp [Op.plainly, first] at done
    | ok step =>
      simp only [Op.plainly, first, ok_bind, pure_eq_ok] at done
      cases done
      exact hash_insert first
  | extend pairs =>
    cases all : p.insertAll pairs with
    | error fault => simp [Op.plainly, all] at done
    | ok last =>
      simp only [Op.plainly, all, ok_bind, pure_eq_ok] at done
      cases done
      exact hash_insertAll all
  | ofList pairs =>
    cases all : (Plain.blank ({} : Config).rounded p.hash).insertAll pairs with
    | error fault => simp [Op.plainly, all] at done
    | ok last =>
      simp only [Op.plainly, all, ok_bind, pure_eq_ok] at done
      cases done
      have kept := hash_insertAll all
      exact kept
  | replace key value =>
    cases done
    exact (Plain.hash_whereFound key _).trans Plain.hash_upkeep
  | remove key =>
    cases done
    exact (Plain.hash_whereFound key _).trans Plain.hash_upkeep
  | erase key =>
    cases done
    exact (Plain.hash_whereFound key _).trans Plain.hash_upkeep
  | get key | getEntry key | contains key =>
    cases done
    exact Plain.hash_upkeep
  | rehash buckets =>
    cases done
    exact (Plain.settings_relocate buckets).1.trans Plain.settings_startResize.1
  | settle | toList | keys | values =>
    cases done
    exact (Plain.settings_relocate _).1
  | peek key | count | clear | copy =>
    cases done
    rfl

end Hashes

theorem ops_alike (depicts : Depicts map p) (ops : List (Op K V)) :
    Matching (fun expected actual => expected.1 = actual.1 ∧ Depicts actual.2 expected.2)
      (runAll Op.plainly ops p) (runAll Op.run ops map) := by
  have step : ∀ op (p : Plain K V) map, Depicts map p →
      Matching Alike (Op.plainly op p) (Op.run op map) := fun op p map depicts =>
    op_alike depicts op
  apply matching_imp (@runAll_matching _ _ _ _ _ Eq (fun p map => Depicts map p) _ _ step ops _ _
    depicts)
  rintro expected actual ⟨answers, after⟩
  rw [List.forall₂_eq_eq_eq] at answers
  exact ⟨answers, after⟩

theorem reachable_depicts {hash : K → UInt64} (reachable : Reachable hash map) :
    ∃ p, Depicts map p ∧ p.hash = hash := by
  induction reachable with
  | @made config map built =>
    obtain ⟨valid, rfl⟩ := made_of_ofConfig built
    exact ⟨_, build_depicts valid hash, rfl⟩
  | @step map next op answer before ran ih =>
    obtain ⟨p, depicts, itsHash⟩ := ih
    have alike := op_alike depicts op
    rw [ran] at alike
    obtain ⟨pair, expected, -, after⟩ := matching_ok_right alike
    exact ⟨pair.2, after, (hash_plainly expected).trans itsHash⟩

end MemIndex.ChainMap
