import MemIndex.Proofs.SkipList.Seeking
import MemIndex.Proofs.SkipList.Survivors

/- Ranks. That of a key counts the entries with smaller keys, and that of an entry is its place in
   the row, so they agree on the earliest entry of every key. -/
namespace MemIndex.SkipList

variable {K V γ : Type} [Ord K]

def smaller (key : K) (pair : K × V) : Bool := (compare pair.1 key).isLT

structure Ranked (survivors : Survivors K V) (list : SkipList K V γ) : Prop where
  row : list.toList = .ok (sorted survivors)
  len : list.len = (sorted survivors).length
  counted : ∀ key, list.rank key =
    .ok (if survivors.any (hasKey key) then 1 + survivors.countP (smaller key) else 0)
  placed : ∀ rank, list.atRank rank = .ok (if rank = 0 then none else (sorted survivors)[rank - 1]?)
  earliest : ∀ key rank, list.rank key = .ok rank → rank ≠ 0 →
    ∃ entry, survivors.find? (hasKey key) = some entry ∧ list.atRank rank = .ok (some entry)
  returned : ∀ rank entry, list.atRank rank = .ok (some entry) →
    ∃ first, list.rank entry.1 = .ok first ∧ 0 < first ∧ first ≤ rank ∧
      (first = rank ↔ ∀ earlier ∈ (sorted survivors).take (rank - 1), ¬ hasKey entry.1 earlier)

section Rows

variable {front back row : List (K × V)} {key : K}

theorem count_smaller (less : ∀ pair ∈ front, smaller key pair = true)
    (notLess : ∀ pair ∈ back, smaller key pair = false) :
    (front ++ back).countP (smaller key) = front.length := by
  rw [List.countP_append, List.countP_eq_length.mpr less,
    List.countP_eq_zero.mpr (by simpa using notLess), Nat.add_zero]

variable [Std.TransOrd K] (ascending : row.Pairwise fun a b => notAfter a b = true)

include ascending

theorem place_of_earliest (present : row.any (hasKey key) = true) :
    row[row.countP (smaller key)]? = row.find? (hasKey key) := by
  obtain ⟨front, back, rfl, less, notLess, other⟩ := split_key ascending key
  have apart := smaller_apart less
  rw [count_smaller less notLess, earliest_behind apart, List.getElem?_append_right (Nat.le_refl _),
    Nat.sub_self]
  rcases other with none | ⟨first, rest, rfl, equal⟩
  · rw [List.any_append, List.any_eq_false.mpr (by simpa using apart),
      List.any_eq_false.mpr (by simpa using none)] at present
    cases present
  · rw [List.find?_cons_of_pos equal]
    rfl

/-- The smaller keys are all in front of an entry, and no others are if it is the first of its
key. -/
theorem place_of_entry {place : Nat} {entry : K × V} (here : row[place]? = some entry) :
    row.countP (smaller entry.1) ≤ place ∧
      (row.countP (smaller entry.1) = place ↔
        ∀ earlier ∈ row.take place, ¬ hasKey entry.1 earlier) := by
  obtain ⟨front, back, rfl, less, notLess, other⟩ := split_key ascending entry.1
  have apart := smaller_apart less
  rw [count_smaller less notLess]
  have behind : front.length ≤ place := by
    by_contra inside
    rw [List.getElem?_append_left (Nat.lt_of_not_le inside)] at here
    have self := apart entry (List.mem_of_getElem? here)
    rw [hasKey_self] at self
    cases self
  refine ⟨behind, ?_⟩
  constructor
  · rintro rfl earlier member
    rw [List.take_left'] at member
    · simp [apart earlier member]
    · rfl
  · intro fresh
    rw [List.getElem?_append_right behind] at here
    rcases other with none | ⟨first, rest, rfl, equal⟩
    · have self := none entry (List.mem_of_getElem? here)
      rw [hasKey_self] at self
      cases self
    · by_contra later
      have early : front.length < place := Nat.lt_of_le_of_ne behind later
      have inside : front.length < min place (front ++ first :: rest).length := by
        rw [List.length_append, List.length_cons]
        omega
      exact fresh first (List.mem_take_iff_getElem.mpr ⟨front.length, inside, by simp⟩) equal

end Rows

section Lists

variable {list : SkipList K V γ} {survivors : Survivors K V} {key : K}

theorem sorted_perm (survivors : Survivors K V) : (sorted survivors).Perm survivors :=
  List.mergeSort_perm survivors notAfter

theorem any_head {pairs : List (K × V)} (first : (∀ pair ∈ pairs, hasKey key pair = false) ∨
    ∃ first rest, pairs = first :: rest ∧ hasKey key first = true) :
    pairs.any (hasKey key) = pairs.head?.any (hasKey key) := by
  rcases first with none | ⟨first, rest, rfl, equal⟩
  · rw [List.any_eq_false.mpr (by simpa using none)]
    cases pairs with
    | nil => rfl
    | cons first rest => exact (none first List.mem_cons_self).symm
  · rw [List.any_cons, equal, List.head?_cons, Option.any_some, equal, Bool.true_or]

variable [Std.TransOrd K]

theorem rank_mirrors (mirrors : Mirrors list survivors) (key : K) : list.rank key =
    .ok (if survivors.any (hasKey key) then 1 + survivors.countP (smaller key) else 0) := by
  obtain ⟨items, laid, inOrder⟩ := mirrors
  have perm := sorted_perm survivors
  obtain ⟨first, second, whole, less, notLess, other⟩ := split_key inOrder.ascending key
  rw [← inOrder_eq inOrder, whole] at perm
  rw [← perm.countP_eq, ← perm.any_eq, count_smaller less notLess, List.any_append,
    List.any_eq_false.mpr (by simpa using smaller_apart less), Bool.false_or, any_head other]
  obtain ⟨front, back, path, rfl, rfl, rfl, way⟩ :=
    way_between laid (fun k => (compare k key).isLT) whole less notLess
  rw [rank_ok laid way, List.length_map, List.head?_map, Option.any_map, Nat.add_comm]

theorem atRank_mirrors (mirrors : Mirrors list survivors) (rank : Nat) :
    list.atRank rank = .ok (if rank = 0 then none else (sorted survivors)[rank - 1]?) := by
  obtain ⟨items, laid, inOrder⟩ := mirrors
  rw [atRank_ok laid, ← inOrder_eq inOrder, List.getElem?_map]

theorem earliest_mirrors (mirrors : Mirrors list survivors) {rank : Nat}
    (found : list.rank key = .ok rank) (stored : rank ≠ 0) :
    ∃ entry, survivors.find? (hasKey key) = some entry ∧ list.atRank rank = .ok (some entry) := by
  have inOrder := inOrder_sorted survivors
  have perm := sorted_perm survivors
  rw [rank_mirrors mirrors, ← perm.any_eq, ← perm.countP_eq] at found
  cases present : (sorted survivors).any (hasKey key) with
  | false =>
    rw [present] at found
    exact absurd (Except.ok.inj found).symm stored
  | true =>
    rw [present, if_pos rfl] at found
    obtain rfl := Except.ok.inj found
    have place := place_of_earliest inOrder.ascending present
    rw [← earliest_inOrder inOrder] at place
    obtain ⟨entry, held⟩ : ∃ entry, survivors.find? (hasKey key) = some entry := by
      rw [earliest_inOrder inOrder, ← Option.isSome_iff_exists, List.find?_isSome]
      simpa using present
    refine ⟨entry, held, ?_⟩
    rw [atRank_mirrors mirrors, if_neg stored, Nat.add_sub_cancel_left, place, held]

theorem returned_mirrors (mirrors : Mirrors list survivors) {rank : Nat} {entry : K × V}
    (found : list.atRank rank = .ok (some entry)) :
    ∃ first, list.rank entry.1 = .ok first ∧ 0 < first ∧ first ≤ rank ∧
      (first = rank ↔ ∀ earlier ∈ (sorted survivors).take (rank - 1), ¬ hasKey entry.1 earlier) := by
  have perm := sorted_perm survivors
  rw [atRank_mirrors mirrors] at found
  have here := Except.ok.inj found
  by_cases none : rank = 0
  · rw [if_pos none] at here
    cases here
  · rw [if_neg none] at here
    have present : (sorted survivors).any (hasKey entry.1) = true :=
      List.any_eq_true.mpr ⟨entry, List.mem_of_getElem? here, hasKey_self entry⟩
    obtain ⟨behind, fresh⟩ := place_of_entry (inOrder_sorted survivors).ascending here
    refine ⟨1 + (sorted survivors).countP (smaller entry.1), ?_, by omega, by omega, ?_⟩
    · rw [rank_mirrors mirrors, ← perm.any_eq, ← perm.countP_eq, present, if_pos rfl]
    · rw [← fresh]
      omega

/-- From an empty list with any accepted settings and any draws, all operations leave a list whose
ranks count. -/
theorem operations_rank_entries [DrawSource γ] {config : Config} (valid : config.Valid) (draws : γ)
    (ops : List (Op K V)) :
    Matching (fun expected actual => Ranked expected.2 actual.2)
      (runAll Op.meaning ops []) (runAll Op.run ops (build config draws)) := by
  apply matching_imp (ops_follow (build_mirrors valid draws) ops)
  rintro expected actual ⟨-, mirrors⟩
  constructor
  · exact toList_mirrors mirrors
  · rw [len_mirrors mirrors, (sorted_perm expected.2).length_eq]
  · exact rank_mirrors mirrors
  · exact atRank_mirrors mirrors
  · intro key rank found stored
    exact earliest_mirrors mirrors found stored
  · intro rank entry found
    exact returned_mirrors mirrors found

theorem operations_rank_entries_words : ∃ expected actual,
    runAll Op.meaning (uneven ++ [.remove 5, .insert 3 31]) [] = .ok expected ∧
      runAll Op.run (uneven ++ [.remove 5, .insert 3 31]) (build {} (Xoshiro.ofSeed 118)) =
        .ok actual ∧ actual.2.level = 2 ∧ Ranked expected.2 actual.2 := by
  have outline : (runAll Op.run (uneven ++ [.remove 5, .insert 3 31])
      (build {} (Xoshiro.ofSeed 118))).map (·.2.level) = .ok 2 := by decide +kernel
  obtain ⟨actual, ran, level⟩ := map_eq_ok.mp outline
  -- Hidden from here on, as the run would be carried out again at every look at it.
  generalize uneven ++ [.remove 5, .insert 3 31] = ops at ran ⊢
  have ranked := operations_rank_entries Config.default_valid (Xoshiro.ofSeed 118) ops
  rw [ran] at ranked
  obtain ⟨expected, meant, same⟩ := matching_ok_right ranked
  exact ⟨expected, actual, meant, ran, level, same⟩

end Lists

end MemIndex.SkipList
