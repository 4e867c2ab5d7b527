import Mathlib.Data.List.Basic
import MemIndex.SkipList.Update

/- Entries in the order of their keys, equal ones in the order of their arrival. There is only one
   such row, so a row that is kept in order step by step is the stable sort of what arrived. -/
namespace MemIndex.SkipList

variable {K V : Type} [Ord K]

def notAfter (a b : K × V) : Bool := (compare a.1 b.1).isLE

def hasKey (key : K) (pair : K × V) : Bool := (compare pair.1 key).isEq

def sorted (arrived : List (K × V)) : List (K × V) := arrived.mergeSort notAfter

/-- The keys ascend, and the entries of any one key are as they arrived. -/
structure InOrder (arrived row : List (K × V)) : Prop where
  ascending : row.Pairwise fun a b => notAfter a b = true
  arrival : ∀ key, row.filter (hasKey key) = arrived.filter (hasKey key)

theorem earliest_inOrder {arrived row : List (K × V)} (inOrder : InOrder arrived row) (key : K) :
    arrived.find? (hasKey key) = row.find? (hasKey key) := by
  rw [← List.head?_filter, ← List.head?_filter, inOrder.arrival]

theorem smaller_apart {key : K} {pairs : List (K × V)}
    (less : ∀ pair ∈ pairs, (compare pair.1 key).isLT = true) :
    ∀ pair ∈ pairs, hasKey key pair = false := by
  intro pair member
  have order := Ordering.isLT_iff_eq_lt.mp (less pair member)
  simp [hasKey, order]

theorem earliest_behind {key : K} {front back : List (K × V)}
    (apart : ∀ pair ∈ front, hasKey key pair = false) :
    (front ++ back).find? (hasKey key) = back.find? (hasKey key) := by
  rw [List.find?_append, List.find?_eq_none.mpr (by simpa using apart), Option.none_or]

variable [Std.TransOrd K] {arrived row : List (K × V)}

theorem hasKey_self (pair : K × V) : hasKey pair.1 pair = true := by
  simp [hasKey]

theorem notAfter_trans (a b c : K × V) (first : notAfter a b = true)
    (second : notAfter b c = true) : notAfter a c = true :=
  Std.TransCmp.isLE_trans first second

theorem notAfter_total (a b : K × V) : (notAfter a b || notAfter b a) = true := by
  have swapped : compare b.1 a.1 = (compare a.1 b.1).swap := Std.OrientedOrd.eq_swap
  unfold notAfter
  rw [swapped]
  cases compare a.1 b.1 <;> rfl

theorem same_key {key other : K} {pair : K × V} (first : hasKey key pair = true)
    (second : hasKey other pair = true) : compare key other = .eq :=
  Std.TransCmp.eq_trans (Std.OrientedCmp.eq_symm (Ordering.isEq_iff_eq_eq.mp first))
    (Ordering.isEq_iff_eq_eq.mp second)

theorem notAfter_of_hasKey {key : K} {a b : K × V} (first : hasKey key a = true)
    (second : hasKey key b = true) : notAfter a b = true := by
  have same : compare a.1 b.1 = .eq := Std.TransCmp.eq_trans (Ordering.isEq_iff_eq_eq.mp first)
    (Std.OrientedCmp.eq_symm (Ordering.isEq_iff_eq_eq.mp second))
  unfold notAfter
  rw [same]
  rfl

theorem hasKey_of_notAfter {a b : K × V} (first : notAfter a b = true)
    (second : notAfter b a = true) : hasKey b.1 a = true := by
  unfold hasKey
  rw [Ordering.isEq_iff_eq_eq]
  exact Std.OrientedCmp.isLE_antisymm first second

theorem inOrder_sorted (arrived : List (K × V)) : InOrder arrived (sorted arrived) := by
  constructor
  · exact List.pairwise_mergeSort notAfter_trans notAfter_total arrived
  · intro key
    have ascending : (arrived.filter (hasKey key)).Pairwise fun a b => notAfter a b = true := by
      rw [List.pairwise_iff_forall_sublist]
      intro a b sub
      have first := (List.mem_filter.mp (sub.subset List.mem_cons_self)).2
      have second := (List.mem_filter.mp (sub.subset (List.mem_cons_of_mem _ List.mem_cons_self))).2
      exact notAfter_of_hasKey first second
    have sub : (arrived.filter (hasKey key)).Sublist (sorted arrived) :=
      List.sublist_mergeSort notAfter_trans notAfter_total ascending List.filter_sublist
    have kept := sub.filter (hasKey key)
    rw [List.filter_filter] at kept
    simp only [Bool.and_self] at kept
    have perm := (List.mergeSort_perm arrived notAfter).filter (hasKey key)
    exact (kept.eq_of_length perm.length_eq.symm).symm

theorem member_of_filters {xs ys : List (K × V)} {pair : K × V}
    (same : ∀ key, xs.filter (hasKey key) = ys.filter (hasKey key)) (member : pair ∈ xs) :
    pair ∈ ys := by
  have kept : pair ∈ xs.filter (hasKey pair.1) :=
    List.mem_filter.mpr ⟨member, hasKey_self pair⟩
  rw [same] at kept
  exact (List.mem_filter.mp kept).1

theorem notAfter_first {first pair : K × V} {rest : List (K × V)}
    (ascending : (first :: rest).Pairwise fun a b => notAfter a b = true)
    (member : pair ∈ first :: rest) : notAfter first pair = true := by
  rcases List.mem_cons.mp member with rfl | later
  · exact notAfter_of_hasKey (hasKey_self pair) (hasKey_self pair)
  · exact (List.pairwise_cons.mp ascending).1 pair later

theorem ascending_unique {xs ys : List (K × V)}
    (first : xs.Pairwise fun a b => notAfter a b = true)
    (second : ys.Pairwise fun a b => notAfter a b = true)
    (same : ∀ key, xs.filter (hasKey key) = ys.filter (hasKey key)) : xs = ys := by
  induction xs generalizing ys with
  | nil =>
    apply Eq.symm
    rw [List.eq_nil_iff_forall_not_mem]
    intro pair member
    exact List.not_mem_nil (member_of_filters (fun key => (same key).symm) member)
  | cons x xs ih =>
    cases ys with
    | nil => exact absurd (member_of_filters same List.mem_cons_self) List.not_mem_nil
    | cons y ys =>
      have oneWay := notAfter_first second (member_of_filters same List.mem_cons_self)
      have otherWay := notAfter_first first
        (member_of_filters (fun key => (same key).symm) List.mem_cons_self)
      have heads := same x.1
      rw [List.filter_cons_of_pos (hasKey_self x),
        List.filter_cons_of_pos (hasKey_of_notAfter oneWay otherWay)] at heads
      obtain ⟨rfl, -⟩ := List.cons.inj heads
      have rest : ∀ key, xs.filter (hasKey key) = ys.filter (hasKey key) := by
        intro key
        have both := same key
        by_cases held : hasKey key x = true
        · rw [List.filter_cons_of_pos held, List.filter_cons_of_pos held] at both
          exact (List.cons.inj both).2
        · rw [List.filter_cons_of_neg held, List.filter_cons_of_neg held] at both
          exact both
      rw [ih (List.pairwise_cons.mp first).2 (List.pairwise_cons.mp second).2 rest]

theorem inOrder_eq (inOrder : InOrder arrived row) : row = sorted arrived := by
  have stable := inOrder_sorted arrived
  apply ascending_unique inOrder.ascending stable.ascending
  intro key
  rw [inOrder.arrival, stable.arrival]

theorem length_inOrder (inOrder : InOrder arrived row) : row.length = arrived.length := by
  rw [inOrder_eq inOrder, sorted, List.length_mergeSort]

section Places

theorem split_ascending (ascending : row.Pairwise fun a b => notAfter a b = true) (holds : K → Bool)
    (downward : ∀ a b : K × V, notAfter a b = true → holds b.1 = true → holds a.1 = true) :
    ∃ front back, row = front ++ back ∧ (∀ pair ∈ front, holds pair.1 = true) ∧
      ∀ pair ∈ back, holds pair.1 = false := by
  induction row with
  | nil => exact ⟨[], [], rfl, by simp, by simp⟩
  | cons first rest ih =>
    have after := ascending
    rw [List.pairwise_cons] at ascending
    by_cases here : holds first.1 = true
    · obtain ⟨front, back, rfl, yes, no⟩ := ih ascending.2
      refine ⟨first :: front, back, rfl, ?_, no⟩
      intro pair member
      rcases List.mem_cons.mp member with rfl | later
      · exact here
      · exact yes pair later
    · refine ⟨[], first :: rest, rfl, by simp, ?_⟩
      intro pair member
      rw [← Bool.not_eq_true]
      intro there
      exact here (downward _ _ (notAfter_first after member) there)

theorem split_key (ascending : row.Pairwise fun a b => notAfter a b = true) (key : K) :
    ∃ front back, row = front ++ back ∧ (∀ pair ∈ front, (compare pair.1 key).isLT = true) ∧
      (∀ pair ∈ back, (compare pair.1 key).isLT = false) ∧
      ((∀ pair ∈ back, hasKey key pair = false) ∨
        ∃ first rest, back = first :: rest ∧ hasKey key first = true) := by
  obtain ⟨front, back, rfl, less, notLess⟩ :=
    split_ascending ascending (fun k => (compare k key).isLT) (by
      intro a b first second
      rw [Ordering.isLT_iff_eq_lt] at second ⊢
      exact Std.TransCmp.lt_of_isLE_of_lt first second)
  refine ⟨front, back, rfl, less, notLess, ?_⟩
  cases back with
  | nil => exact Or.inl (by simp)
  | cons first rest =>
    by_cases equal : hasKey key first = true
    · exact Or.inr ⟨first, rest, rfl, equal⟩
    · left
      intro pair member
      rw [← Bool.not_eq_true]
      intro held
      have before := notAfter_first (List.pairwise_append.mp ascending).2.1 member
      have notFirst := notLess first List.mem_cons_self
      have same := Ordering.isEq_iff_eq_eq.mp held
      unfold notAfter at before
      rw [Std.TransCmp.congr_right same] at before
      unfold hasKey at equal
      cases order : compare first.1 key with
      | lt => simp [order] at notFirst
      | eq => simp [order] at equal
      | gt => simp [order] at before

end Places

section Steps

variable {front back : List (K × V)}

/-- A new entry stands behind all those that do not come after it. -/
theorem inOrder_insert {pair : K × V} (inOrder : InOrder arrived (front ++ back))
    (notGreater : ∀ other ∈ front, (compare other.1 pair.1).isLE = true)
    (greater : ∀ other ∈ back, (compare other.1 pair.1).isLE = false) :
    InOrder (arrived ++ [pair]) (front ++ pair :: back) := by
  obtain ⟨low, high, across⟩ := List.pairwise_append.mp inOrder.ascending
  constructor
  · apply List.pairwise_append.mpr
    refine ⟨low, List.pairwise_cons.mpr ⟨?_, high⟩, ?_⟩
    · intro other member
      have total := notAfter_total pair other
      rw [show notAfter other pair = false from greater other member, Bool.or_false] at total
      exact total
    · intro a inFront b member
      rcases List.mem_cons.mp member with rfl | inBack
      · exact notGreater a inFront
      · exact across a inFront b inBack
  · intro key
    have old := inOrder.arrival key
    rw [List.filter_append] at old
    rw [List.filter_append, List.filter_append, ← old]
    by_cases held : hasKey key pair = true
    · have none : back.filter (hasKey key) = [] := by
        rw [List.filter_eq_nil_iff]
        intro other member also
        have fits := notAfter_of_hasKey also held
        rw [show notAfter other pair = false from greater other member] at fits
        cases fits
      rw [List.filter_cons_of_pos held, List.filter_cons_of_pos held, none]
      simp
    · rw [List.filter_cons_of_neg held, List.filter_cons_of_neg held]
      simp

omit [Ord K] [Std.TransOrd K] in
theorem filter_eraseP_apart {p q : K × V → Bool} {pairs : List (K × V)}
    (apart : ∀ pair, p pair = true → q pair = false) :
    (pairs.eraseP p).filter q = pairs.filter q := by
  induction pairs with
  | nil => rfl
  | cons pair rest ih =>
    by_cases held : p pair = true
    · rw [List.eraseP_cons_of_pos held, List.filter_cons_of_neg (by simp [apart pair held])]
    · rw [List.eraseP_cons_of_neg held, List.filter_cons, List.filter_cons, ih]

theorem inOrder_remove {pair : K × V} {key : K} (inOrder : InOrder arrived (front ++ pair :: back))
    (less : ∀ other ∈ front, (compare other.1 key).isLT = true) (equal : hasKey key pair = true) :
    InOrder (arrived.eraseP (hasKey key)) (front ++ back) := by
  constructor
  · exact inOrder.ascending.sublist ((List.sublist_cons_self pair back).append_left front)
  · intro other
    have old := inOrder.arrival other
    rw [List.filter_append] at old ⊢
    by_cases held : hasKey other pair = true
    · have same := same_key equal held
      have sameKey : ∀ x : K × V, hasKey other x = hasKey key x := by
        intro x
        rw [hasKey, hasKey, Std.TransCmp.congr_right same]
      have none : front.filter (hasKey other) = [] := by
        rw [List.filter_eq_nil_iff]
        intro x member
        rw [sameKey, smaller_apart less x member]
        exact Bool.false_ne_true
      have both : arrived.eraseP (hasKey key) =
          arrived.eraseP fun x => hasKey key x && hasKey other x := by
        congr 1
        funext x
        rw [sameKey, Bool.and_self]
      rw [both, ← List.eraseP_filter, ← old, none, List.filter_cons_of_pos held]
      rw [List.nil_append, List.nil_append, List.eraseP_cons_of_pos equal]
    · rw [filter_eraseP_apart, ← old, List.filter_cons_of_neg held]
      intro x matched
      by_contra also
      have same := same_key matched (by simpa using also)
      exact held (Ordering.isEq_iff_eq_eq.mpr
        (Std.TransCmp.eq_trans (Ordering.isEq_iff_eq_eq.mp equal) same))

end Steps

end MemIndex.SkipList
