import Mathlib.Data.List.Pairwise
import MemIndex.Proofs.ChainMap.Plain

/- What the operations of a plain map do to all its pairs, and that they keep it sound. Resizing
   never changes the pairs; storing, replacing and removing change one of them. -/
namespace MemIndex.ChainMap

variable {K V : Type}

section Keys

variable [BEq K]

/-- A hash function that does not tell equal keys apart. -/
def Respects (hash : K → UInt64) : Prop := ∀ a b : K, (a == b) = true → hash a = hash b

def Distinct (pairs : List (K × V)) : Prop := pairs.Pairwise fun x y => (x.1 == y.1) = false

theorem distinct_perm [EquivBEq K] {pairs others : List (K × V)} (perm : pairs.Perm others) :
    Distinct pairs ↔ Distinct others :=
  perm.pairwise_iff fun {x y} apart => by rw [BEq.comm]; exact apart

theorem find?_iff_mem [EquivBEq K] {pairs : List (K × V)} (distinct : Distinct pairs) {key : K}
    {pair : K × V} : pairs.find? (·.1 == key) = some pair ↔
      pair ∈ pairs ∧ (pair.1 == key) = true := by
  constructor
  · intro found
    exact ⟨List.mem_of_find?_eq_some found,
      List.find?_some (p := fun x : K × V => x.1 == key) found⟩
  · rintro ⟨member, matched⟩
    induction pairs with
    | nil => cases member
    | cons first rest ih =>
      obtain ⟨apart, distinct⟩ := List.pairwise_cons.mp distinct
      rcases List.mem_cons.mp member with rfl | later
      · exact List.find?_cons_of_pos (p := fun x : K × V => x.1 == key) matched
      · have differ : ¬ (first.1 == key) = true := by
          intro same
          have := BEq.trans same (BEq.symm matched)
          rw [apart pair later] at this
          cases this
        rw [List.find?_cons_of_neg (p := fun x : K × V => x.1 == key) differ]
        exact ih distinct later

theorem find?_perm [EquivBEq K] {pairs others : List (K × V)} (distinct : Distinct pairs)
    (perm : pairs.Perm others) (key : K) :
    pairs.find? (·.1 == key) = others.find? (·.1 == key) := by
  apply Option.ext
  intro pair
  rw [find?_iff_mem distinct, find?_iff_mem ((distinct_perm perm).mp distinct), perm.mem_iff]

end Keys

namespace Plain

variable {p : Plain K V}

section Searching

variable [BEq K]

theorem hit_none_iff (respects : Respects p.hash) {rows : Rows (K × V)}
    (filed : Rows.Filed p.hashOf rows) {key : K} :
    p.hit rows key = none ↔ ∀ pair ∈ rows.flatten, (pair.1 == key) = false := by
  unfold hit
  rw [List.find?_eq_none]
  constructor
  · intro absent pair member
    rw [Bool.eq_false_iff]
    intro matched
    have inRow := Rows.mem_row_of_filed filed member
    unfold hashOf at inRow
    rw [respects pair.1 key matched] at inRow
    exact absent pair inRow matched
  · intro absent pair inRow
    rw [absent pair (Rows.mem_flatten_iff.mpr ⟨_, inRow⟩)]
    exact Bool.false_ne_true

theorem find?_eq_entries [EquivBEq K] (respects : Respects p.hash) (sound : p.Sound) (key : K) :
    p.find? key = p.entries.find? (·.1 == key) := by
  have some_mem : ∀ rows : Rows (K × V), ∀ pair, p.hit rows key = some pair →
      pair ∈ rows.flatten ∧ (pair.1 == key) = true := fun rows pair found =>
    ⟨Rows.mem_flatten_iff.mpr ⟨_, List.mem_of_find?_eq_some found⟩,
      List.find?_some (p := fun x : K × V => x.1 == key) found⟩
  cases found : p.find? key with
  | none =>
    obtain ⟨noTarget, noActive⟩ := Option.or_eq_none_iff.mp found
    refine (List.find?_eq_none.mpr fun pair member => ?_).symm
    rcases List.mem_append.mp member with here | there
    · rw [(hit_none_iff respects sound.filed).mp noActive pair here]
      exact Bool.false_ne_true
    · rw [(hit_none_iff respects sound.targetFiled).mp noTarget pair there]
      exact Bool.false_ne_true
  | some pair =>
    refine ((find?_iff_mem sound.distinct).mpr ?_).symm
    rcases Option.or_eq_some_iff.mp found with there | ⟨-, here⟩
    · obtain ⟨member, matched⟩ := some_mem _ _ there
      exact ⟨List.mem_append_right _ member, matched⟩
    · obtain ⟨member, matched⟩ := some_mem _ _ here
      exact ⟨List.mem_append_left _ member, matched⟩

end Searching

section Resizing

theorem startResize_cases (p : Plain K V) : p.startResize = (p, []) ∨
    p.moving = none ∧ p.config.resizeDue p.active.flatten.length p.active.length = true ∧
      p.startResize =
        ({ p with
            moving := some (0,
              List.replicate (p.config.fittingBuckets p.active.flatten.length) []) },
          [.started p.active.flatten.length p.active.length
            (p.config.fittingBuckets p.active.flatten.length)]) := by
  by_cases idle : (p.moving.isSome ||
      !p.config.resizeDue p.active.flatten.length p.active.length) = true
  · exact Or.inl (if_pos idle)
  · refine Or.inr ⟨?_, ?_, if_neg idle⟩
    · cases moving : p.moving with
      | none => rfl
      | some _ => simp [moving] at idle
    · simp only [Bool.or_eq_true, Bool.not_eq_true', not_or, Bool.not_eq_false] at idle
      exact idle.2

theorem entries_startResize : p.startResize.1.entries = p.entries := by
  rcases startResize_cases p with idle | ⟨stable, -, begun⟩
  · rw [idle]
  · simp [begun, entries, target, stable]

theorem startResize_tidy (tidy : p.Tidy) : p.startResize.1.Tidy := by
  rcases startResize_cases p with idle | ⟨stable, due, begun⟩
  · rw [idle]
    exact tidy
  · obtain ⟨given, valid, rounded⟩ := tidy.config
    have power : ∃ k, p.config.minBuckets = 2 ^ k := by
      rw [rounded]
      exact Config.rounded_minBuckets given
    have positive : 0 < p.config.loadFactor.units := by
      rw [rounded]
      exact @Config.units_positive given valid
    rw [begun]
    refine ⟨tidy.config, tidy.size, tidy.least, tidy.filed, Rows.filed_empty _ _, ?_⟩
    intro cursor target moving
    cases moving
    refine ⟨?_, ?_, ?_, @active_positive _ _ p tidy, fun bucket before => ?_⟩
    · rw [List.length_replicate]
      exact Config.fittingBuckets_eq_pow power _
    · rw [List.length_replicate]
      exact Config.minBuckets_le_fittingBuckets _ _
    · rw [List.length_replicate]
      exact Config.fittingBuckets_ne positive due
    · exact absurd before (Nat.not_lt_zero bucket)

theorem relocate_cases (p : Plain K V) (steps : Nat) :
    (p.moving = none ∧ p.relocate steps = (p, [])) ∨
    ∃ cursor target, p.moving = some (cursor, target) ∧
      (cursor + steps < p.active.length ∧ (p.relocate steps).1 =
          { p with
            active := (p.shifted cursor steps target).1
            moving := some (cursor + steps, (p.shifted cursor steps target).2) } ∨
        p.active.length ≤ cursor + steps ∧ (p.relocate steps).1 =
          { p with
            active := (p.shifted cursor (p.active.length - cursor) target).2
            moving := none }) := by
  cases moving : p.moving with
  | none => exact Or.inl ⟨rfl, by simp [relocate, moving]⟩
  | some state =>
    obtain ⟨cursor, target⟩ := state
    refine Or.inr ⟨cursor, target, rfl, ?_⟩
    by_cases more : cursor + steps < p.active.length
    · refine Or.inl ⟨more, ?_⟩
      have stop : min (cursor + steps) p.active.length = cursor + steps := by omega
      simp [relocate, moving, stop, more]
    · refine Or.inr ⟨Nat.le_of_not_lt more, ?_⟩
      have stop : min (cursor + steps) p.active.length = p.active.length := by omega
      simp [relocate, moving, stop]

theorem row_shifted (cursor count : Nat) (target : Rows (K × V)) (bucket : Nat) :
    (p.shifted cursor count target).1.row bucket =
      if cursor ≤ bucket ∧ bucket < cursor + count then [] else p.active.row bucket := by
  unfold shifted
  rw [Rows.row_shifts]
  simp only [List.mem_range'_1]

theorem shifted_perm {target : Rows (K × V)} (positive : 0 < target.length) (cursor count : Nat) :
    ((p.shifted cursor count target).1.flatten ++
        (p.shifted cursor count target).2.flatten).Perm (p.active.flatten ++ target.flatten) :=
  Rows.shifts_perm positive

theorem filed_shifted {target : Rows (K × V)} (filed : Rows.Filed p.hashOf p.active)
    (targetFiled : Rows.Filed p.hashOf target) (cursor count : Nat) :
    Rows.Filed p.hashOf (p.shifted cursor count target).1 ∧
      Rows.Filed p.hashOf (p.shifted cursor count target).2 := Rows.filed_shifts filed targetFiled

theorem shifted_empty {cursor count : Nat} {target : Rows (K × V)}
    (midway : p.Midway cursor target) (reach : p.active.length ≤ cursor + count) :
    (p.shifted cursor count target).1.flatten = [] := by
  apply Rows.flatten_eq_nil
  intro bucket inside
  have within : bucket < p.active.length := by
    rwa [shifted, Rows.length_shifts] at inside
  rw [row_shifted]
  by_cases done : bucket < cursor
  · rw [midway.done bucket done, ite_self]
  · rw [if_pos (by omega)]

theorem entries_of_moving {cursor : Nat} {target : Rows (K × V)}
    (moving : p.moving = some (cursor, target)) :
    p.entries = p.active.flatten ++ target.flatten := by
  simp [entries, Plain.target, moving]

theorem relocate_perm (tidy : p.Tidy) (steps : Nat) :
    (p.relocate steps).1.entries.Perm p.entries := by
  rcases relocate_cases p steps with ⟨-, idle⟩ | ⟨cursor, target, moving, ⟨-, moved⟩ | ⟨-, moved⟩⟩
  · rw [idle]
  · rw [moved, entries_of_moving moving]
    exact shifted_perm (target_positive tidy moving) _ _
  · have perm := @shifted_perm _ _ p _ (target_positive tidy moving) cursor
      (p.active.length - cursor)
    rw [shifted_empty (tidy.midway cursor target moving) (by omega)] at perm
    rw [moved, entries_of_moving moving]
    simpa [entries, Plain.target] using perm

theorem targetFiled_of_moving (tidy : p.Tidy) {cursor : Nat} {target : Rows (K × V)}
    (moving : p.moving = some (cursor, target)) : Rows.Filed p.hashOf target := by
  simpa [Plain.target, moving] using tidy.targetFiled

theorem relocate_tidy (tidy : p.Tidy) (steps : Nat) : (p.relocate steps).1.Tidy := by
  rcases relocate_cases p steps with ⟨-, idle⟩ |
    ⟨cursor, target, moving, ⟨more, moved⟩ | ⟨-, moved⟩⟩
  · rw [idle]
    exact tidy
  all_goals
    have midway := tidy.midway cursor target moving
    have targetFiled := targetFiled_of_moving tidy moving
    rw [moved]
  · obtain ⟨activeFiled, targetFiled⟩ := filed_shifted tidy.filed targetFiled cursor steps
    refine ⟨tidy.config, ?_, ?_, activeFiled, targetFiled, ?_⟩
    · simpa [shifted, Rows.length_shifts] using tidy.size
    · simpa [shifted, Rows.length_shifts] using tidy.least
    · intro now itsTarget same
      cases same
      refine ⟨?_, ?_, ?_, ?_, fun bucket before => ?_⟩
      · simpa [shifted, Rows.length_shifts_target] using midway.size
      · simpa [shifted, Rows.length_shifts_target] using midway.least
      · simpa [shifted, Rows.length_shifts_target, Rows.length_shifts] using midway.other
      · simpa [shifted, Rows.length_shifts] using more
      · rw [row_shifted]
        split
        · rfl
        · exact midway.done bucket (by omega)
  · obtain ⟨-, targetFiled⟩ := filed_shifted tidy.filed targetFiled cursor
      (p.active.length - cursor)
    refine ⟨tidy.config, ?_, ?_, targetFiled, Rows.filed_empty _ 0, ?_⟩
    · simpa [shifted, Rows.length_shifts_target] using midway.size
    · simpa [shifted, Rows.length_shifts_target] using midway.least
    · intro now itsTarget same
      cases same

theorem settings_startResize :
    p.startResize.1.hash = p.hash ∧ p.startResize.1.config = p.config := by
  rcases startResize_cases p with idle | ⟨-, -, begun⟩
  · rw [idle]
    exact ⟨rfl, rfl⟩
  · rw [begun]
    exact ⟨rfl, rfl⟩

theorem settings_relocate (steps : Nat) :
    (p.relocate steps).1.hash = p.hash ∧ (p.relocate steps).1.config = p.config := by
  rcases relocate_cases p steps with ⟨-, idle⟩ | ⟨_, _, -, ⟨-, moved⟩ | ⟨-, moved⟩⟩
  · rw [idle]
    exact ⟨rfl, rfl⟩
  · rw [moved]
    exact ⟨rfl, rfl⟩
  · rw [moved]
    exact ⟨rfl, rfl⟩

theorem hash_upkeep : p.upkeep.1.hash = p.hash := by
  simp only [upkeep]
  split
  · exact (settings_relocate _).1.trans settings_startResize.1
  · exact settings_startResize.1

/-- The same pairs under the same settings, at another moment of a resize. -/
structure Resized (p q : Plain K V) : Prop where
  tidy : q.Tidy
  perm : q.entries.Perm p.entries
  hash : q.hash = p.hash
  config : q.config = p.config

theorem resized_trans {q r : Plain K V} (first : Resized p q) (second : Resized q r) :
    Resized p r :=
  ⟨second.tidy, second.perm.trans first.perm, second.hash.trans first.hash,
    second.config.trans first.config⟩

theorem resized_startResize (tidy : p.Tidy) : Resized p p.startResize.1 :=
  ⟨startResize_tidy tidy, List.Perm.of_eq entries_startResize, settings_startResize.1,
    settings_startResize.2⟩

theorem resized_relocate (tidy : p.Tidy) (steps : Nat) : Resized p (p.relocate steps).1 :=
  ⟨relocate_tidy tidy steps, relocate_perm tidy steps, (settings_relocate steps).1,
    (settings_relocate steps).2⟩

theorem resized_upkeep (tidy : p.Tidy) : Resized p p.upkeep.1 := by
  have started := resized_startResize tidy
  simp only [upkeep]
  by_cases resizing : p.startResize.1.moving.isSome = true
  · rw [if_pos resizing]
    exact resized_trans started (resized_relocate started.tidy _)
  · rw [if_neg resizing]
    exact started

theorem sound_of_resized [BEq K] [EquivBEq K] {q : Plain K V} (resized : Resized p q)
    (sound : p.Sound) : q.Sound :=
  ⟨resized.tidy, (distinct_perm resized.perm).mpr sound.distinct⟩

theorem settle_stable (p : Plain K V) : p.settle.1.moving = none := by
  rcases relocate_cases p p.active.length with ⟨stable, idle⟩ |
    ⟨cursor, _, -, ⟨more, -⟩ | ⟨-, moved⟩⟩
  · unfold settle
    rw [idle]
    exact stable
  · omega
  · unfold settle
    rw [moved]

end Resizing

section Storing

theorem put_perm (tidy : p.Tidy) (key : K) (value : V) :
    (p.put key value).entries.Perm ((key, value) :: p.entries) := by
  cases moving : p.moving with
  | none =>
    have perm := Rows.put_perm (active_positive tidy) (p.hash key) (key, value)
    simpa [entries, put, target, moving] using perm
  | some state =>
    obtain ⟨cursor, target⟩ := state
    have perm := Rows.put_perm (target_positive tidy moving) (p.hash key) (key, value)
    rw [entries_of_moving moving, put, moving]
    exact (perm.append_left _).trans List.perm_middle

theorem put_tidy (tidy : p.Tidy) (key : K) (value : V) : (p.put key value).Tidy := by
  cases moving : p.moving with
  | none =>
    simp only [put, moving]
    refine ⟨tidy.config, ?_, ?_, Rows.filed_put tidy.filed (key, value), Rows.filed_empty _ 0,
      fun cursor target same => ?_⟩
    · simpa using tidy.size
    · simpa using tidy.least
    · cases same
  | some state =>
    obtain ⟨cursor, target⟩ := state
    have midway := tidy.midway cursor target moving
    have targetFiled := targetFiled_of_moving tidy moving
    simp only [put, moving]
    refine ⟨tidy.config, tidy.size, tidy.least, tidy.filed,
      Rows.filed_put targetFiled (key, value), fun now itsTarget same => ?_⟩
    cases same
    refine ⟨?_, ?_, ?_, midway.inside, midway.done⟩
    · simpa using midway.size
    · simpa using midway.least
    · simpa using midway.other

theorem hash_put (key : K) (value : V) : (p.put key value).hash = p.hash := by
  unfold put
  split <;> rfl

theorem put_sound [BEq K] [EquivBEq K] (respects : Respects p.hash) (sound : p.Sound) {key : K}
    (absent : p.find? key = none) (value : V) : (p.put key value).Sound := by
  have tidy := sound.toTidy
  refine ⟨put_tidy tidy key value, ?_⟩
  rw [find?_eq_entries respects sound, List.find?_eq_none] at absent
  refine (distinct_perm (put_perm tidy key value)).mpr
    (List.pairwise_cons.mpr ⟨fun pair member => ?_, sound.distinct⟩)
  rw [BEq.comm]
  exact Bool.eq_false_iff.mpr (absent pair member)

end Storing

section Changing

variable [BEq K] {key : K} {pair : K × V}

/-- A table may be changed as long as it keeps its size, files its pairs, and leaves empty buckets
empty. -/
theorem whereFound_tidy (tidy : p.Tidy) (key : K) {change : Rows (K × V) → Rows (K × V)}
    (length : ∀ rows, (change rows).length = rows.length)
    (filed : ∀ rows, Rows.Filed p.hashOf rows → Rows.Filed p.hashOf (change rows))
    (empty : ∀ rows bucket, Rows.row rows bucket = [] → Rows.row (change rows) bucket = []) :
    (p.whereFound key change).Tidy := by
  unfold whereFound
  split
  · refine ⟨tidy.config, tidy.size, tidy.least, tidy.filed, ?_, ?_⟩
    · cases moving : p.moving with
      | none =>
        simp only [target, Option.map_none]
        exact Rows.filed_empty _ 0
      | some state =>
        simp only [target, Option.map_some]
        exact filed _ (targetFiled_of_moving tidy moving)
    · intro cursor now same
      obtain ⟨⟨_, before⟩, moving, same⟩ := Option.map_eq_some_iff.mp same
      cases same
      have midway := tidy.midway _ _ moving
      refine ⟨?_, ?_, ?_, midway.inside, midway.done⟩
      · rw [length]
        exact midway.size
      · rw [length]
        exact midway.least
      · rw [length]
        exact midway.other
  · refine ⟨tidy.config, ?_, ?_, filed _ tidy.filed, tidy.targetFiled, ?_⟩
    · simpa only [length] using tidy.size
    · simpa only [length] using tidy.least
    · intro cursor now moving
      have midway := tidy.midway cursor now moving
      refine ⟨midway.size, midway.least, ?_, ?_, ?_⟩
      · simpa only [length] using midway.other
      · simpa only [length] using midway.inside
      · intro bucket below
        exact empty _ _ (midway.done bucket below)

theorem hash_whereFound (key : K) (change : Rows (K × V) → Rows (K × V)) :
    (p.whereFound key change).hash = p.hash := by
  unfold whereFound
  split <;> rfl

theorem replace_tidy (tidy : p.Tidy) (key : K) (value : V) : (p.replace key value).Tidy := by
  apply whereFound_tidy tidy
  · intro rows
    exact Rows.length_revise _ _ _
  · intro rows filed
    exact Rows.filed_revise filed _ _ fun _ => rfl
  · intro rows bucket empty
    exact Rows.row_revise_nil empty

theorem discard_tidy (tidy : p.Tidy) (key : K) : (p.discard key).Tidy := by
  apply whereFound_tidy tidy
  · intro rows
    exact Rows.length_discard _ _
  · intro rows filed
    exact Rows.filed_discard filed _ _
  · intro rows bucket empty
    exact Rows.row_discard_nil empty

theorem found_cases (found : p.find? key = some pair) :
    (∃ cursor target, p.moving = some (cursor, target) ∧ p.hit target key = some pair ∧
        ∀ change, p.whereFound key change = { p with moving := some (cursor, change target) }) ∨
      p.hit p.target key = none ∧ p.hit p.active key = some pair ∧
        ∀ change, p.whereFound key change = { p with active := change p.active } := by
  rcases Option.or_eq_some_iff.mp found with there | ⟨missing, here⟩
  · left
    cases moving : p.moving with
    | none =>
      rw [target, moving] at there
      cases there
    | some state =>
      obtain ⟨cursor, target⟩ := state
      have itsTarget : p.target = target := by simp [Plain.target, moving]
      rw [itsTarget] at there
      refine ⟨cursor, target, rfl, there, fun change => ?_⟩
      simp [whereFound, itsTarget, there, moving]
  · right
    refine ⟨missing, here, fun change => ?_⟩
    simp [whereFound, missing]

theorem replace_absent (absent : p.find? key = none) (value : V) : p.replace key value = p := by
  obtain ⟨noTarget, noActive⟩ := Option.or_eq_none_iff.mp absent
  rw [replace, whereFound, noTarget]
  simp only [Rows.revise_eq_self noActive]

theorem discard_absent (absent : p.find? key = none) : p.discard key = p := by
  obtain ⟨noTarget, noActive⟩ := Option.or_eq_none_iff.mp absent
  rw [discard, whereFound, noTarget]
  simp only [Rows.discard_eq_self noActive]

theorem discard_perm (found : p.find? key = some pair) :
    (pair :: (p.discard key).entries).Perm p.entries := by
  rcases found_cases found with ⟨cursor, target, moving, hit, changed⟩ | ⟨-, hit, changed⟩
  · rw [discard, changed, entries_of_moving moving]
    exact List.perm_middle.symm.trans ((Rows.discard_perm hit).append_left _)
  · rw [discard, changed]
    exact (Rows.discard_perm hit).append_right _

theorem replace_perm (found : p.find? key = some pair) (value : V) :
    (p.replace key value).entries.Perm ((pair.1, value) :: (p.discard key).entries) := by
  rcases found_cases found with ⟨cursor, target, moving, hit, changed⟩ | ⟨-, hit, changed⟩
  · rw [replace, changed, discard, changed]
    exact ((Rows.revise_perm hit _).append_left _).trans List.perm_middle
  · rw [replace, changed, discard, changed]
    exact (Rows.revise_perm hit _).append_right _

variable [EquivBEq K]

theorem discard_sound (sound : p.Sound) (found : p.find? key = some pair) :
    (p.discard key).Sound := by
  have distinct := (distinct_perm (discard_perm found)).mpr sound.distinct
  exact ⟨discard_tidy sound.toTidy key, (List.pairwise_cons.mp distinct).2⟩

/-- The replaced pair has the key of the old one, so it differs from the others as that one did. -/
theorem replace_sound (sound : p.Sound) (found : p.find? key = some pair) (value : V) :
    (p.replace key value).Sound := by
  have distinct := (distinct_perm (discard_perm found)).mpr sound.distinct
  obtain ⟨apart, rest⟩ := List.pairwise_cons.mp distinct
  exact ⟨replace_tidy sound.toTidy key value,
    (distinct_perm (replace_perm found value)).mpr (List.pairwise_cons.mpr ⟨apart, rest⟩)⟩

end Changing

theorem blank_tidy {given : Config} (valid : given.Valid) (hash : K → UInt64) :
    (blank given.rounded hash : Plain K V).Tidy := by
  refine ⟨⟨given, valid, rfl⟩, ?_, ?_, Rows.filed_empty _ _, Rows.filed_empty _ 0, ?_⟩
  · simpa [blank] using Config.rounded_minBuckets given
  · simp [blank]
  · intro cursor target same
    cases same

@[simp] theorem entries_blank (config : Config) (hash : K → UInt64) :
    (blank config hash : Plain K V).entries = [] := by
  simp [entries, blank, target]

theorem clear_blank {config : Config} (same : p.config = config) :
    p.clear = blank config p.hash := by
  rw [clear, blank, same]

theorem clear_tidy (tidy : p.Tidy) : p.clear.Tidy := by
  obtain ⟨given, valid, rounded⟩ := tidy.config
  rw [clear_blank rounded]
  exact blank_tidy valid p.hash

@[simp] theorem entries_clear (p : Plain K V) : p.clear.entries = [] := by
  simp [entries, clear, target]

end Plain

end MemIndex.ChainMap
