import Mathlib.Data.List.Chain
import MemIndex.Proofs.SkipList.Links

/- The nodes of a skip list as a row of towers. The link of a node on a level leads to the next
   tower that is tall enough, and its span counts the towers up to that one. Nothing else is to be
   known about the links, so they are computed from the row. -/
namespace MemIndex.SkipList

variable {K V : Type}

structure Tower where
  slot : Nat
  height : Nat
  deriving DecidableEq, Repr

/-- The link of a node on a level, for the towers after it. -/
def onward (level : Nat) : List Tower → Link
  | [] => ⟨tail, 0⟩
  | t :: rest =>
    if level < t.height then ⟨t.slot, 1⟩
    else ⟨(onward level rest).next, (onward level rest).span + 1⟩

def Short (level : Nat) (towers : List Tower) : Prop := ∀ t ∈ towers, t.height ≤ level

section Onward

variable {level : Nat} {front back : List Tower}

theorem onward_tall {t : Tower} (tall : level < t.height) (rest : List Tower) :
    onward level (t :: rest) = ⟨t.slot, 1⟩ := if_pos tall

theorem onward_short (short : Short level front) : onward level (front ++ back) =
    ⟨(onward level back).next, (onward level back).span + front.length⟩ := by
  induction front with
  | nil => rfl
  | cons t rest ih =>
    have low : ¬ level < t.height := Nat.not_lt.mpr (short t List.mem_cons_self)
    have others := ih fun x member => short x (List.mem_cons_of_mem _ member)
    rw [List.cons_append, onward, if_neg low, others, List.length_cons]
    rfl

theorem onward_cut {t : Tower} (member : t ∈ front) (tall : level < t.height)
    (other : List Tower) : onward level (front ++ back) = onward level (front ++ other) := by
  induction front with
  | nil => cases member
  | cons first rest ih =>
    by_cases here : level < first.height
    · rw [List.cons_append, List.cons_append, onward_tall here, onward_tall here]
    · rcases List.mem_cons.mp member with rfl | later
      · exact absurd tall here
      · rw [List.cons_append, List.cons_append, onward, onward, if_neg here, if_neg here, ih later]

theorem onward_next (level : Nat) (towers : List Tower) :
    (onward level towers).next = tail ∨
      ∃ t ∈ towers, level < t.height ∧ (onward level towers).next = t.slot := by
  induction towers with
  | nil => exact Or.inl rfl
  | cons t rest ih =>
    unfold onward
    split
    · rename_i tall
      exact Or.inr ⟨t, List.mem_cons_self, tall, rfl⟩
    · rcases ih with ended | ⟨other, member, tall, next⟩
      · exact Or.inl ended
      · exact Or.inr ⟨other, List.mem_cons_of_mem _ member, tall, next⟩

theorem onward_of_short (short : Short level front) :
    onward level front = ⟨tail, front.length⟩ := by
  have whole := @onward_short level front [] short
  rw [List.append_nil] at whole
  rw [whole, onward, Nat.zero_add]

theorem first_tall (level : Nat) (towers : List Tower) : Short level towers ∨
    ∃ before t after, towers = before ++ t :: after ∧ level < t.height ∧ Short level before := by
  induction towers with
  | nil =>
    left
    intro t member
    cases member
  | cons t rest ih =>
    by_cases tall : level < t.height
    · right
      refine ⟨[], t, rest, rfl, tall, ?_⟩
      intro x member
      cases member
    · rcases ih with short | ⟨before, x, after, rfl, high, short⟩
      · left
        intro x member
        rcases List.mem_cons.mp member with rfl | later
        · exact Nat.le_of_not_lt tall
        · exact short x later
      · right
        refine ⟨t :: before, x, after, rfl, high, ?_⟩
        intro y member
        rcases List.mem_cons.mp member with rfl | later
        · exact Nat.le_of_not_lt tall
        · exact short y later

end Onward

section Splits

variable {α : Type} {pre post front back : List α} {t x : α}

theorem split_append (same : front ++ back = pre ++ t :: post) :
    (∃ mid, front = pre ++ t :: mid ∧ post = mid ++ back) ∨
      ∃ mid, pre = front ++ mid ∧ back = mid ++ t :: post := by
  rcases List.append_eq_append_iff.mp same with ⟨mid, before, after⟩ | ⟨mid, before, after⟩
  · exact Or.inr ⟨mid, before, after⟩
  · cases mid with
    | nil =>
      rw [List.append_nil] at before
      rw [List.nil_append] at after
      exact Or.inr ⟨[], by simp [before], after.symm⟩
    | cons y rest =>
      rw [List.cons_append] at after
      obtain ⟨rfl, rfl⟩ := List.cons.inj after
      exact Or.inl ⟨rest, before, rfl⟩

theorem split_middle (same : front ++ x :: back = pre ++ t :: post) :
    (∃ mid, front = pre ++ t :: mid ∧ post = mid ++ x :: back) ∨
      (pre = front ∧ t = x ∧ post = back) ∨
        ∃ mid, pre = front ++ x :: mid ∧ back = mid ++ t :: post := by
  rcases split_append same with first | ⟨mid, before, after⟩
  · exact Or.inl first
  · cases mid with
    | nil =>
      obtain ⟨rfl, rfl⟩ := List.cons.inj after
      exact Or.inr (Or.inl ⟨by simpa using before, rfl, rfl⟩)
    | cons y rest =>
      obtain ⟨rfl, rfl⟩ := List.cons.inj after
      exact Or.inr (Or.inr ⟨rest, before, rfl⟩)

/-- Where a row made from a list is cut behind one of its towers, the list is cut too. -/
theorem split_row {α : Type} {tower : α → Tower} {first x : Tower} {items : List α}
    {before back : List Tower} (whole : first :: items.map tower = before ++ x :: back) :
    ∃ held rest, items = held ++ rest ∧ before ++ [x] = first :: held.map tower ∧
      back = rest.map tower := by
  cases before with
  | nil =>
    obtain ⟨rfl, rfl⟩ := List.cons.inj whole
    exact ⟨[], items, rfl, rfl, rfl⟩
  | cons y before =>
    obtain ⟨rfl, others⟩ := List.cons.inj whole
    obtain ⟨held, rest, rfl, inFront, rfl⟩ :=
      List.map_eq_append_iff.mp (others.trans (List.append_cons before x back))
    exact ⟨held, rest, rfl, congrArg _ inFront.symm, rfl⟩

end Splits

def Linked (nodes : Arena (Node K V)) (towers : List Tower) : Prop :=
  ∀ pre t post, towers = pre ++ t :: post → ∀ l, l < t.height →
    linkOf nodes t.slot l = some (onward l post)

def Backed (nodes : Arena (Node K V)) (slots : List Nat) : Prop :=
  List.IsChain (fun a b => previousOf nodes b = some a) (head :: slots ++ [tail])

/-- The last tower of a row that is tall enough for a level, and its place in the row. -/
def StopsAt (row : List Tower) (level : Nat) (stop : Stop) : Prop :=
  ∃ pre t mid, row = pre ++ t :: mid ∧ level < t.height ∧ Short level mid ∧
    stop = ⟨t.slot, pre.length⟩

section Stops

variable {row pre before mid after : List Tower} {t x : Tower} {level : Nat}

theorem stop_unique (here : row = pre ++ t :: mid) (tall : level < t.height)
    (short : Short level mid) (there : row = before ++ x :: after) (high : level < x.height)
    (low : Short level after) : pre = before ∧ t = x ∧ mid = after := by
  subst here
  rcases split_middle there with ⟨between, -, rfl⟩ | ⟨rfl, rfl, rfl⟩ | ⟨between, -, rfl⟩
  · have := low t (by simp)
    omega
  · exact ⟨rfl, rfl, rfl⟩
  · have := short x (by simp)
    omega

theorem stop_at_end (used : ∀ t ∈ row, 0 < t.height) {stop : Stop} (stops : StopsAt row 0 stop) :
    ∃ pre t, row = pre ++ [t] ∧ stop = ⟨t.slot, pre.length⟩ := by
  obtain ⟨pre, t, mid, rfl, tall, short, rfl⟩ := stops
  cases mid with
  | nil => exact ⟨pre, t, rfl, rfl⟩
  | cons x rest =>
    have := short x List.mem_cons_self
    have := used x (by simp)
    omega

end Stops

section Chains

variable {R S : Nat → Nat → Prop} {front back : List Nat} {a b x : Nat}

theorem chain_insert (chain : List.IsChain R (front ++ a :: b :: back))
    (first : ∀ p q, q ∈ (front ++ [a]).tail → R p q → S p q)
    (rest : ∀ p q, q ∈ back → R p q → S p q) (enter : S a x) (leave : S x b) :
    List.IsChain S (front ++ a :: x :: b :: back) := by
  obtain ⟨start, -, last⟩ := List.isChain_append_cons_cons.mp chain
  rw [List.isChain_append_cons_cons]
  constructor
  · exact start.imp_of_mem_tail_imp fun p q _ member => first p q member
  · constructor
    · exact enter
    · rw [List.isChain_cons_cons]
      exact ⟨leave, last.imp_of_mem_tail_imp fun p q _ member => rest p q member⟩

theorem chain_remove (chain : List.IsChain R (front ++ a :: x :: b :: back))
    (first : ∀ p q, q ∈ (front ++ [a]).tail → R p q → S p q)
    (rest : ∀ p q, q ∈ back → R p q → S p q) (across : S a b) :
    List.IsChain S (front ++ a :: b :: back) := by
  obtain ⟨start, -, middle⟩ := List.isChain_append_cons_cons.mp chain
  have last := (List.isChain_cons_cons.mp middle).2
  rw [List.isChain_append_cons_cons]
  constructor
  · exact start.imp_of_mem_tail_imp fun p q _ member => first p q member
  · exact ⟨across, last.imp_of_mem_tail_imp fun p q _ member => rest p q member⟩

end Chains

end MemIndex.SkipList
