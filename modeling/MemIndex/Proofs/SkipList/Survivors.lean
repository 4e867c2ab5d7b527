import MemIndex.Proofs.SkipList.History
import MemIndex.Proofs.SkipList.Reading
import MemIndex.Proofs.SkipList.Removing
import MemIndex.Proofs.SkipList.Starting

/- A skip list is the stable sort of the insertions that no removal has undone, whatever levels the
   nodes are drawn to. -/
namespace MemIndex.SkipList

variable {K V γ : Type} [Ord K] {list : SkipList K V γ} {survivors : Survivors K V}

def Mirrors (list : SkipList K V γ) (survivors : Survivors K V) : Prop :=
  ∃ items, Laid list items ∧ InOrder survivors (items.map Item.entry)

section Steps

theorem len_mirrors [Std.TransOrd K] (mirrors : Mirrors list survivors) :
    list.len = survivors.length := by
  obtain ⟨items, laid, inOrder⟩ := mirrors
  rw [laid.len, ← length_inOrder inOrder, List.length_map]

theorem build_mirrors {config : Config} (valid : config.Valid) (draws : γ) :
    Mirrors (build config draws : SkipList K V γ) [] :=
  ⟨[], build_laid valid draws, List.Pairwise.nil, fun _ => rfl⟩

theorem clear_mirrors (mirrors : Mirrors list survivors) : Mirrors list.clear [] := by
  obtain ⟨items, laid, -⟩ := mirrors
  exact ⟨[], clear_laid laid, List.Pairwise.nil, fun _ => rfl⟩

theorem copy_mirrors (mirrors : Mirrors list survivors) : Mirrors list.copy survivors := by
  obtain ⟨items, laid, inOrder⟩ := mirrors
  exact ⟨items, copy_laid laid, inOrder⟩

variable [Std.TransOrd K]

theorem toList_mirrors (mirrors : Mirrors list survivors) :
    list.toList = .ok (sorted survivors) := by
  obtain ⟨items, laid, inOrder⟩ := mirrors
  rw [toList_laid laid, inOrder_eq inOrder]

theorem toListBack_mirrors (mirrors : Mirrors list survivors) :
    list.toListBack = .ok (sorted survivors).reverse := by
  obtain ⟨items, laid, inOrder⟩ := mirrors
  rw [toListBack_laid laid, inOrder_eq inOrder]

theorem insert_mirrors [DrawSource γ] (mirrors : Mirrors list survivors) (key : K) (value : V) :
    Matching (fun expected outcome => outcome.answer = true ∧ Mirrors outcome.state expected)
      (survivors.add (key, value)) (list.insert key value) := by
  have len := len_mirrors mirrors
  obtain ⟨items, laid, inOrder⟩ := mirrors
  obtain ⟨first, second, whole, notGreater, greater⟩ :=
    split_ascending inOrder.ascending (fun k => (compare k key).isLE) fun a b before after =>
      Std.TransCmp.isLE_trans before after
  rw [whole] at inOrder
  obtain ⟨front, back, path, rfl, rfl, rfl, way⟩ := way_between laid (fun k => (compare k key).isLE) whole notGreater greater
  have size : list.nodes.len = survivors.length + 2 := by
    rw [laid.woven.size, ← laid.len, len]
  by_cases room : survivors.length + 2 < Arena.maxSlots
  · obtain ⟨outcome, x, done, answer, entry, after⟩ :=
      insert_ok laid value way (by rw [size]; exact room)
    unfold Survivors.add
    rw [if_pos room, done]
    refine ⟨answer, front ++ x :: back, after, ?_⟩
    rw [List.map_append, List.map_cons, entry]
    exact inOrder_insert inOrder notGreater greater
  · have few := Arena.len_le_maxSlots laid.woven.sound
    have full : list.nodes.len = Arena.maxSlots := by omega
    unfold Survivors.add
    rw [if_neg room, insert_full laid value way full]
    rfl

theorem extend_mirrors [DrawSource γ] (mirrors : Mirrors list survivors)
    (entries : List (K × V)) :
    Matching (fun expected outcome => Mirrors outcome.state expected)
      (entries.foldlM Survivors.add survivors) (list.extend entries) := by
  induction entries generalizing list survivors with
  | nil => exact mirrors
  | cons entry rest ih =>
    rw [List.foldlM_cons, extend]
    apply matching_bind (insert_mirrors mirrors entry.1 entry.2)
    intro expected one step
    exact matching_map (ih step.2) fun _ _ after => after

theorem remove_nothing (mirrors : Mirrors list survivors) {key : K}
    (absent : survivors.find? (hasKey key) = none) :
    list.remove key = .ok ⟨none, list, []⟩ := by
  obtain ⟨items, laid, inOrder⟩ := mirrors
  rw [earliest_inOrder inOrder, List.find?_eq_none] at absent
  obtain ⟨first, second, whole, less, notLess, -⟩ := split_key inOrder.ascending key
  obtain ⟨front, back, path, rfl, rfl, rfl, way⟩ := way_between laid (fun k => (compare k key).isLT) whole less notLess
  apply remove_absent way laid
  rintro x rest rfl
  rw [Ordering.isNe_iff_ne_eq]
  intro equal
  exact absent x.entry (by simp) (Ordering.isEq_iff_eq_eq.mpr equal)

theorem remove_mirrors (mirrors : Mirrors list survivors) (key : K) :
    ∃ outcome, list.remove key = .ok outcome ∧
      outcome.answer = survivors.find? (hasKey key) ∧
      Mirrors outcome.state (survivors.eraseP (hasKey key)) := by
  cases found : survivors.find? (hasKey key) with
  | none =>
    refine ⟨_, remove_nothing mirrors found, rfl, ?_⟩
    rw [List.eraseP_of_forall_not (List.find?_eq_none.mp found)]
    exact mirrors
  | some entry =>
    obtain ⟨items, laid, inOrder⟩ := mirrors
    rw [earliest_inOrder inOrder] at found
    obtain ⟨first, second, whole, less, notLess, other⟩ := split_key inOrder.ascending key
    rw [whole] at inOrder found
    rw [earliest_behind (smaller_apart less)] at found
    rcases other with apart | ⟨earliest, later, rfl, equal⟩
    · rw [List.find?_eq_none.mpr (by simpa using apart)] at found
      cases found
    · rw [List.find?_cons_of_pos equal] at found
      cases found
      obtain ⟨front, back, path, rfl, rfl, tail, way⟩ := way_between laid (fun k => (compare k key).isLT) whole less notLess
      obtain ⟨x, rest, rfl, rfl, rfl⟩ := List.map_eq_cons_iff.mp tail.symm
      obtain ⟨outcome, done, answer, after⟩ :=
        remove_ok way laid (Ordering.isEq_iff_eq_eq.mp equal)
      refine ⟨outcome, done, answer, front ++ rest, after, ?_⟩
      rw [List.map_append]
      exact inOrder_remove inOrder less equal

theorem op_follows [DrawSource γ] (mirrors : Mirrors list survivors) (op : Op K V) :
    Matching (fun expected actual => expected.1 = actual.1 ∧ Mirrors actual.2 expected.2)
      (op.meaning survivors) (op.run list) := by
  cases op with
  | insert key value =>
    apply matching_bind (insert_mirrors mirrors key value)
    intro expected outcome step
    exact ⟨congrArg Answer.truth step.1.symm, step.2⟩
  | remove key =>
    obtain ⟨outcome, done, answer, after⟩ := remove_mirrors mirrors key
    simp only [Op.run, done, ok_bind]
    exact ⟨congrArg Answer.entry answer.symm, after⟩
  | erase key =>
    obtain ⟨outcome, done, answer, after⟩ := remove_mirrors mirrors key
    simp only [Op.run, erase, done, ok_bind]
    exact ⟨congrArg (fun removed => Answer.truth removed.isSome) answer.symm, after⟩
  | extend entries =>
    exact matching_bind (extend_mirrors mirrors entries) fun _ _ after => ⟨rfl, after⟩
  | clear => exact ⟨rfl, clear_mirrors mirrors⟩
  | copy => exact ⟨rfl, copy_mirrors mirrors⟩
  | count => exact ⟨congrArg Answer.count (len_mirrors mirrors).symm, mirrors⟩
  | toList =>
    simp only [Op.run, toList_mirrors mirrors, ok_bind]
    exact ⟨rfl, mirrors⟩
  | toListBack =>
    simp only [Op.run, toListBack_mirrors mirrors, ok_bind]
    exact ⟨rfl, mirrors⟩

theorem ops_follow [DrawSource γ] (mirrors : Mirrors list survivors) (ops : List (Op K V)) :
    Matching (fun expected actual => List.Forall₂ Eq expected.1 actual.1 ∧
        Mirrors actual.2 expected.2)
      (runAll Op.meaning ops survivors) (runAll Op.run ops list) := by
  apply @runAll_matching _ _ _ _ _ Eq fun survivors list => Mirrors list survivors
  · intro op survivors list mirrors
    exact op_follows mirrors op
  · exact mirrors

end Steps

/-- The same answers so far, and a list that reads as the sorted survivors. A removal that finds no
survivor leaves the list as it is. -/
structure Follows (expected : List (Answer K V) × Survivors K V)
    (actual : List (Answer K V) × SkipList K V γ) : Prop where
  answers : actual.1 = expected.1
  len : actual.2.len = expected.2.length
  forwards : actual.2.toList = .ok (sorted expected.2)
  backwards : actual.2.toListBack = .ok (sorted expected.2).reverse
  untouched : ∀ key, expected.2.find? (hasKey key) = none →
    actual.2.remove key = .ok ⟨none, actual.2, []⟩ ∧ actual.2.erase key = .ok ⟨false, actual.2, []⟩

/-- From an empty list with any accepted settings and any draws, all operations answer as the
survivors do. Both run out of room together, and no other fault occurs. -/
theorem operations_follow_survivors [DrawSource γ] [Std.TransOrd K] {config : Config}
    (valid : config.Valid) (draws : γ) (ops : List (Op K V)) :
    Matching Follows (runAll Op.meaning ops []) (runAll Op.run ops (build config draws)) := by
  apply matching_imp (ops_follow (build_mirrors valid draws) ops)
  rintro expected actual ⟨answers, mirrors⟩
  rw [List.forall₂_eq_eq_eq] at answers
  refine ⟨answers.symm, len_mirrors mirrors, toList_mirrors mirrors, toListBack_mirrors mirrors, ?_⟩
  intro key absent
  have removed := remove_nothing mirrors absent
  refine ⟨removed, ?_⟩
  unfold erase
  rw [removed]
  rfl

/-- With the draws from the seed 118 the towers are 2, 1, 3 and 1 nodes high. -/
def uneven : List (Op Nat Nat) := [.insert 5 50, .insert 3 30, .insert 5 51, .insert 8 80]

theorem operations_follow_survivors_words : ∃ expected actual,
    runAll Op.meaning (uneven ++ [.remove 5, .erase 4]) [] = .ok expected ∧
      runAll Op.run (uneven ++ [.remove 5, .erase 4]) (build {} (Xoshiro.ofSeed 118)) =
        .ok actual ∧ actual.2.level = 2 ∧ Follows expected actual := by
  have outline : (runAll Op.run (uneven ++ [.remove 5, .erase 4])
      (build {} (Xoshiro.ofSeed 118))).map (·.2.level) = .ok 2 := by decide +kernel
  obtain ⟨actual, ran, level⟩ := map_eq_ok.mp outline
  -- Hidden from here on, as the run would be carried out again at every look at it.
  generalize uneven ++ [.remove 5, .erase 4] = ops at ran ⊢
  have follows := operations_follow_survivors Config.default_valid (Xoshiro.ofSeed 118) ops
  rw [ran] at follows
  obtain ⟨expected, meant, same⟩ := matching_ok_right follows
  exact ⟨expected, actual, meant, ran, level, same⟩

theorem reachable_mirrors [DrawSource γ] [Std.TransOrd K] (reachable : Reachable list) :
    ∃ survivors, Mirrors list survivors := by
  induction reachable with
  | made valid draws => exact ⟨[], build_mirrors valid draws⟩
  | @step list next op answer before ran ih =>
    obtain ⟨survivors, mirrors⟩ := ih
    have follows := op_follows mirrors op
    rw [ran] at follows
    obtain ⟨expected, -, -, after⟩ := matching_ok_right follows
    exact ⟨expected.2, after⟩

theorem uneven_reachable :
    ∃ list : SkipList Nat Nat Xoshiro, Reachable list ∧ list.len = 4 ∧ list.level = 2 := by
  have outline : (runAll Op.run uneven (build {} (Xoshiro.ofSeed 118))).map
      (fun result => (result.2.len, result.2.level)) = .ok (4, 2) := by decide +kernel
  obtain ⟨result, ran, shape⟩ := map_eq_ok.mp outline
  obtain ⟨len, level⟩ := Prod.mk.inj shape
  exact ⟨result.2, runAll_reachable (Reachable.made Config.default_valid _) ran, len, level⟩

end MemIndex.SkipList
