import MemIndex.Proofs.SkipList.Laid
import MemIndex.SkipList.Run

/- Reading a skip list from both ends. A run stands between the items it has passed in front and
   those it has passed at the back, and its counter counts the items that are left. -/
namespace MemIndex.SkipList

variable {K V γ : Type}

section Ends

variable {nodes : Arena (Node K V)} {level maxLevels : Nat} {items front back : List (Item K V)}
  {x : Item K V}

theorem backed_last {slot : Nat} {rest : List Nat}
    (backed : List.IsChain (fun a b => previousOf nodes b = some a)
      (head :: slots items ++ slot :: rest)) : previousOf nodes slot = some (lastSlot items) := by
  rw [← List.dropLast_append_getLast (List.cons_ne_nil head (slots items)), List.append_assoc,
    List.singleton_append] at backed
  exact (List.isChain_append_cons_cons.mp backed).2.1

theorem previous_tail (woven : Woven nodes level maxLevels items) :
    previousOf nodes tail = some (lastSlot items) := backed_last woven.backed

theorem previous_item (woven : Woven nodes level maxLevels (front ++ x :: back)) :
    previousOf nodes x.tower.slot = some (lastSlot front) := by
  have backed := woven.backed
  unfold Backed at backed
  rw [slots_append, slots_cons, ← List.cons_append, List.append_assoc, List.cons_append] at backed
  exact backed_last backed

end Ends

namespace Run

structure Stands (run : Run K V) (level maxLevels : Nat) (before middle after : List (Item K V)) :
    Prop where
  woven : Woven run.nodes level maxLevels (before ++ middle ++ after)
  front : run.front = (onward 0 (towers (middle ++ after))).next
  back : run.back = lastSlot (before ++ middle)
  remaining : run.remaining = middle.length

variable {run : Run K V} {level maxLevels : Nat} {before middle after : List (Item K V)}
  {x : Item K V}

theorem next_ok (stands : run.Stands level maxLevels before (x :: middle) after) :
    ∃ later, run.next = .ok (some x.entry, later) ∧
      later.Stands level maxLevels (before ++ [x]) middle after := by
  have place : Woven run.nodes level maxLevels (before ++ x :: (middle ++ after)) := by
    simpa using stands.woven
  have inItems : x ∈ before ++ x :: (middle ++ after) := by simp
  have front : run.front = x.tower.slot := by
    rw [stands.front, List.cons_append, towers_cons, onward_tall (place.used x inItems)]
  have notTail : ¬ run.front = tail := by
    rw [front]
    exact (slots_ne place (List.mem_map_of_mem inItems)).2
  have some : ¬ run.remaining = 0 := by
    rw [stands.remaining]
    exact Nat.succ_ne_zero _
  refine ⟨{ run with
      front := (onward 0 (towers (middle ++ after))).next
      remaining := run.remaining - 1 }, ?_, ?_, rfl, ?_, ?_⟩
  · rw [next, if_neg some, if_neg notTail, front, linkAt_ok (lowest_link_item place), ok_bind,
      entryAt_ok (place.entries x inItems), ok_bind, pure_eq_ok]
  · simpa using place
  · rw [stands.back]
    simp
  · change run.remaining - 1 = _
    rw [stands.remaining]
    rfl

theorem nextBack_ok (stands : run.Stands level maxLevels before (middle ++ [x]) after) :
    ∃ later, run.nextBack = .ok (some x.entry, later) ∧
      later.Stands level maxLevels before middle (x :: after) := by
  have place : Woven run.nodes level maxLevels ((before ++ middle) ++ x :: after) := by
    simpa using stands.woven
  have inItems : x ∈ (before ++ middle) ++ x :: after := by simp
  have back : run.back = x.tower.slot := by
    rw [stands.back, ← List.append_assoc, lastSlot_append]
  have some : ¬ run.remaining = 0 := by
    rw [stands.remaining, List.length_append]
    exact Nat.succ_ne_zero _
  obtain ⟨node, read, entry, previous⟩ := node_ok (place.entries x inItems) (previous_item place)
  refine ⟨{ run with
      back := lastSlot (before ++ middle)
      remaining := run.remaining - 1 }, ?_, place, ?_, rfl, ?_⟩
  · unfold nextBack
    rw [if_neg some, back, read, ok_bind, entry, previous, pure_eq_ok]
  · rw [stands.front]
    simp
  · change run.remaining - 1 = _
    rw [stands.remaining, List.length_append]
    rfl

theorem toList_ok (stands : run.Stands level maxLevels before middle after) :
    run.toList = .ok (middle.map Item.entry) := by
  unfold toList
  rw [stands.remaining]
  induction middle generalizing run before with
  | nil => rfl
  | cons x middle ih =>
    obtain ⟨later, stepped, rest⟩ := next_ok stands
    rw [List.length_cons, take, stepped, ok_bind]
    simp only [ih rest]
    rfl

theorem toListBack_ok (stands : run.Stands level maxLevels before middle after) :
    run.toListBack = .ok (middle.map Item.entry).reverse := by
  unfold toListBack
  rw [stands.remaining]
  induction middle using List.reverseRecOn generalizing run after with
  | nil => rfl
  | append_singleton middle x ih =>
    obtain ⟨later, stepped, rest⟩ := nextBack_ok stands
    rw [List.length_append, List.length_singleton, take, stepped, ok_bind]
    simp only [ih rest]
    simp

section Pending

/-- What a run has still to read. It need not stand in a row when nothing is left. -/
inductive Pending : Run K V → List (K × V) → Prop where
  | ended {run : Run K V} (none : run.remaining = 0) : Pending run []
  | standing {run : Run K V} {level maxLevels : Nat} {before middle after : List (Item K V)}
    (stands : run.Stands level maxLevels before middle after) :
    Pending run (middle.map Item.entry)

variable {entries : List (K × V)}

theorem pending_length (pending : run.Pending entries) : run.remaining = entries.length := by
  cases pending with
  | ended none => exact none
  | standing stands => rw [stands.remaining, List.length_map]

theorem next_pending (pending : run.Pending entries) :
    ∃ later, run.next = .ok (entries.head?, later) ∧ later.Pending entries.tail := by
  cases pending with
  | ended none => exact ⟨run, by rw [next, if_pos none]; rfl, .ended none⟩
  | @standing _ _ _ middle _ stands =>
    cases middle with
    | nil =>
      have none : run.remaining = 0 := stands.remaining
      exact ⟨run, by rw [next, if_pos none]; rfl, .ended none⟩
    | cons x middle =>
      obtain ⟨later, stepped, rest⟩ := next_ok stands
      exact ⟨later, stepped, .standing rest⟩

theorem nextBack_pending (pending : run.Pending entries) :
    ∃ later, run.nextBack = .ok (entries.getLast?, later) ∧ later.Pending entries.dropLast := by
  cases pending with
  | ended none => exact ⟨run, by rw [nextBack, if_pos none]; rfl, .ended none⟩
  | @standing _ _ _ middle _ stands =>
    rcases List.eq_nil_or_concat' middle with rfl | ⟨middle, x, rfl⟩
    · have none : run.remaining = 0 := stands.remaining
      exact ⟨run, by rw [nextBack, if_pos none]; rfl, .ended none⟩
    · obtain ⟨later, stepped, rest⟩ := nextBack_ok stands
      refine ⟨later, ?_, ?_⟩
      · rw [stepped, List.map_append, List.map_singleton, List.getLast?_concat]
      · rw [List.map_append, List.map_singleton, List.dropLast_concat]
        exact .standing rest

theorem toList_pending (pending : run.Pending entries) : run.toList = .ok entries := by
  cases pending with
  | ended none =>
    rw [toList, none]
    rfl
  | standing stands => exact toList_ok stands

theorem toListBack_pending (pending : run.Pending entries) :
    run.toListBack = .ok entries.reverse := by
  cases pending with
  | ended none =>
    rw [toListBack, none]
    rfl
  | standing stands => exact toListBack_ok stands

end Pending

end Run

section Whole

variable {list : SkipList K V γ} {items : List (Item K V)}

theorem run_ok (laid : Laid list items) : ∃ run, list.run = .ok run ∧
    run.Stands list.level list.maxLevels [] items [] := by
  have woven := laid.woven
  obtain ⟨node, read, -, previous⟩ := node_ok woven.ends.2 (previous_tail woven)
  refine ⟨⟨list.nodes, (onward 0 (towers items)).next, lastSlot items, list.len⟩, ?_, ?_⟩
  · rw [run, linkAt_ok (lowest_link_head woven), ok_bind, read, ok_bind, previous, pure_eq_ok]
  · constructor
    · simpa using woven
    · simp
    · simp
    · exact laid.len

theorem toList_laid (laid : Laid list items) : list.toList = .ok (items.map Item.entry) := by
  obtain ⟨run, started, stands⟩ := run_ok laid
  unfold toList
  rw [started, ok_bind, Run.toList_ok stands]

theorem toListBack_laid (laid : Laid list items) :
    list.toListBack = .ok (items.map Item.entry).reverse := by
  obtain ⟨run, started, stands⟩ := run_ok laid
  unfold toListBack
  rw [started, ok_bind, Run.toListBack_ok stands]

end Whole

end MemIndex.SkipList
