import MemIndex.Proofs.SkipList.Reading
import MemIndex.Proofs.SkipList.Sorting
import MemIndex.Proofs.SkipList.Weaving

/- What is read at the place where a way down ends. The way divides the row in two, and the answers
   are those of the two parts. No property of the order of the keys is used. -/
namespace MemIndex.SkipList

variable {K V γ : Type} {list : SkipList K V γ} {items front back : List (Item K V)}
  {path : Array Stop}

section Places

theorem stop_here (laid : Laid list (front ++ back)) {holds : K → Bool}
    (way : Way list holds front path) : stopOf path 0 = ⟨lastSlot front, front.length⟩ := by
  apply lowest_stop _ way.stopped
  intro item member
  exact laid.woven.used item (List.mem_append_left back member)

theorem seek_ok (laid : Laid list (front ++ back)) {holds : K → Bool}
    (way : Way list holds front path) :
    list.seek holds = .ok ⟨lastSlot front, front.length⟩ := by
  rw [seek, way.walked, ok_bind, stopAt_ok way.stopped (Nat.zero_le _), stop_here laid way]

theorem link_after (laid : Laid list (front ++ back)) :
    linkAt list.nodes (lastSlot front) 0 = .ok (onward 0 (towers back)) :=
  linkAt_ok (lowest_link laid.woven)

theorem link_stop (laid : Laid list (front ++ back)) {holds : K → Bool}
    (way : Way list holds front path) :
    linkAt list.nodes (stopOf path 0).node 0 = .ok (onward 0 (towers back)) := by
  rw [stop_here laid way]
  exact link_after laid

theorem entry_before (laid : Laid list (front ++ back)) :
    entryAt list.nodes (lastSlot front) = .ok (front.getLast?.map Item.entry) := by
  rcases List.eq_nil_or_concat' front with rfl | ⟨init, x, rfl⟩
  · exact entryAt_ok laid.woven.ends.1
  · rw [lastSlot_append, entryAt_ok (laid.woven.entries x (by simp)), List.getLast?_concat]
    rfl

theorem next_cases (laid : Laid list (front ++ back)) :
    (back = [] ∧ (onward 0 (towers back)).next = tail) ∨
      ∃ x rest, back = x :: rest ∧ onward 0 (towers back) = ⟨x.tower.slot, 1⟩ ∧
        x.tower.slot ≠ tail ∧ entryOf list.nodes x.tower.slot = some (some x.entry) := by
  cases back with
  | nil => exact Or.inl ⟨rfl, rfl⟩
  | cons x rest =>
    have member : x ∈ front ++ x :: rest := by simp
    refine Or.inr ⟨x, rest, rfl, onward_tall (laid.woven.used x member) _, ?_, ?_⟩
    · exact (slots_ne laid.woven (List.mem_map_of_mem member)).2
    · exact laid.woven.entries x member

theorem entry_after (laid : Laid list (front ++ back)) :
    entryAfter list.nodes (lastSlot front) = .ok (back.head?.map Item.entry) := by
  rw [entryAfter, link_after laid, ok_bind]
  rcases next_cases laid with ⟨rfl, atTail⟩ | ⟨x, rest, rfl, next, -, entry⟩
  · rw [atTail]
    exact entryAt_ok laid.woven.ends.2
  · rw [next]
    exact entryAt_ok entry

theorem first_ok (laid : Laid list items) : list.first = .ok (items.head?.map Item.entry) :=
  @entry_after K V γ list [] items laid

theorem last_ok (laid : Laid list items) : list.last = .ok (items.getLast?.map Item.entry) := by
  obtain ⟨node, read, -, previous⟩ := node_ok laid.woven.ends.2 (previous_tail laid.woven)
  have whole : Laid list (items ++ []) := by rwa [List.append_nil]
  rw [last, read, ok_bind, previous, entry_before whole]

theorem bound_ok (laid : Laid list (front ++ back)) {holds : K → Bool}
    (way : Way list holds front path) :
    (do
      match ← list.last with
      | none => return none
      | some (greatest, _) =>
        if holds greatest then return none
        else entryAfter list.nodes (← list.seek holds).node) =
      (.ok (if (front ++ back).getLast?.any fun x => holds x.entry.1 then none
        else back.head?.map Item.entry) : Except Fault (Option (K × V))) := by
  rw [last_ok laid, ok_bind]
  rcases List.eq_nil_or_concat' (front ++ back) with none | ⟨init, x, whole⟩
  · rw [none, (List.append_eq_nil_iff.mp none).2]
    rfl
  · rw [whole, List.getLast?_concat, Option.any_some, Option.map_some]
    dsimp only
    split
    · rfl
    · rw [seek_ok laid way, ok_bind, entry_after laid]

end Places

section Queries

variable [Ord K] {key low high : K}

theorem get_ok (laid : Laid list (front ++ back))
    (way : Way list (fun k => (compare k key).isLT) front path) : list.get key =
      .ok ((back.head?.filter fun x => hasKey key x.entry).map fun x => x.entry.2) := by
  rw [get, seek_ok laid way, ok_bind, entry_after laid, ok_bind]
  cases back with
  | nil => rfl
  | cons x rest =>
    rw [List.head?_cons, Option.map_some, Option.filter_some]
    unfold hasKey
    dsimp only
    split
    · rfl
    · rfl

theorem rank_ok (laid : Laid list (front ++ back))
    (way : Way list (fun k => (compare k key).isLT) front path) : list.rank key =
      .ok (if back.head?.any fun x => hasKey key x.entry then front.length + 1 else 0) := by
  rw [rank, seek_ok laid way, ok_bind, link_after laid, ok_bind]
  rcases next_cases laid with ⟨rfl, atTail⟩ | ⟨x, rest, rfl, next, notTail, entry⟩
  · rw [if_pos atTail]
    rfl
  · rw [next, if_neg notTail, keyAt_ok entry, ok_bind, List.head?_cons, Option.any_some]
    unfold hasKey
    split
    · rfl
    · rfl

theorem lowerBound_ok (laid : Laid list (front ++ back))
    (way : Way list (fun k => (compare k key).isLT) front path) : list.lowerBound key =
      .ok (if (front ++ back).getLast?.any fun x => (compare x.entry.1 key).isLT then none
        else back.head?.map Item.entry) := bound_ok laid way

theorem upperBound_ok (laid : Laid list (front ++ back))
    (way : Way list (fun k => (compare k key).isLE) front path) : list.upperBound key =
      .ok (if (front ++ back).getLast?.any fun x => (compare x.entry.1 key).isLE then none
        else back.head?.map Item.entry) := bound_ok laid way

def reaches (low high : K) (items : List (Item K V)) : Bool :=
  !(compare low high).isGT && items.head?.any (fun x => (compare high x.entry.1).isGE) &&
    items.getLast?.any fun x => (compare low x.entry.1).isLE

theorem overlaps_ok (laid : Laid list items) (low high : K) :
    list.overlaps low high = .ok (reaches low high items) := by
  unfold overlaps reaches
  by_cases crossed : (compare low high).isGT = true
  · simp [crossed]
  · rw [if_neg crossed, first_ok laid, last_ok laid]
    cases items with
    | nil => simp
    | cons y rest =>
      have last := List.getLast?_eq_some_getLast (List.cons_ne_nil y rest)
      simp [crossed, last, Bool.and_comm]

theorem firstInRange_ok (laid : Laid list (front ++ back))
    (way : Way list (fun k => (compare k low).isLT) front path) : list.firstInRange low high =
      .ok (if reaches low high (front ++ back) then
        (back.head?.map Item.entry).filter fun pair => (compare pair.1 high).isLE else none) := by
  rw [firstInRange, overlaps_ok laid, ok_bind]
  cases reaches low high (front ++ back) with
  | false => rfl
  | true => simp [seek_ok laid way, entry_after laid]

theorem lastInRange_ok (laid : Laid list (front ++ back))
    (way : Way list (fun k => (compare k high).isLE) front path) : list.lastInRange low high =
      .ok (if reaches low high (front ++ back) then
        (front.getLast?.map Item.entry).filter fun pair => (compare pair.1 low).isGE else none) := by
  rw [lastInRange, overlaps_ok laid, ok_bind]
  cases reaches low high (front ++ back) with
  | false => rfl
  | true => simp [seek_ok laid way, entry_before laid]

end Queries

section Ranks

variable {nodes : Arena (Node K V)} {row ahead pre post before after : List Tower} {t x : Tower}
  {target level : Nat}

/-- A level is left at a tower that is not behind the rank, and in front of one that is. -/
theorem slid_rank
    (slid : Slid (fun next => return next.rank ≤ target) row ahead level pre t before x after)
    (low : pre.length ≤ target) (high : target < row.length) :
    before.length ≤ target ∧ target < before.length + after.length + 1 := by
  have length : (before ++ x :: after).length = before.length + after.length + 1 := by
    rw [List.length_append, List.length_cons, Nat.add_assoc]
  constructor
  · rcases slid.went with rfl | held
    · exact low
    · exact of_decide_eq_true (Except.ok.inj held)
  · rw [← length]
    obtain ⟨rest, whole⟩ := slid.fence.part
    cases rest with
    | nil => rwa [← whole, List.append_nil] at high
    | cons y rest =>
      have halted := (slid.fence.halts y rest whole.symm).2
      exact Nat.lt_of_not_le (of_decide_eq_false (Except.ok.inj halted))

/-- The lowest level has all towers, so there the way down stops at its rank at last. -/
theorem nodeOfRank_ok (linked : Linked nodes row) (ended : Ended row)
    (used : ∀ t ∈ row, 0 < t.height) (fits : row.length ≤ nodes.slots.size)
    (high : target < row.length) (place : row = pre ++ t :: post) (tall : level < t.height)
    (fence : Fence (fun next => return next.rank ≤ target) row ahead level)
    (inside : pre ++ [t] <+: ahead) (low : pre.length ≤ target) :
    ∃ before x after, row = before ++ x :: after ∧ before.length = target ∧
      nodeOfRank nodes target level ⟨t.slot, pre.length⟩ = .ok (some x.slot) := by
  have asked : Asked (fun next => return next.rank ≤ target) row :=
    fun pre t post parts inner => ⟨_, rfl⟩
  have enough : ∀ {p m : List Tower} {x : Tower}, row = p ++ x :: m →
      m.length < nodes.slots.size := by
    intro p m x parts
    rw [parts, List.length_append, List.length_cons] at fits
    omega
  induction level generalizing pre t post ahead with
  | zero =>
    obtain ⟨before, x, after, slid, result⟩ :=
      slide_ok linked asked ended place tall fence inside (enough place)
    obtain ⟨rest, whole⟩ := result.fence.part
    obtain ⟨notBehind, notAhead⟩ := slid_rank result low high
    have reached : before.length = target := by
      cases after with
      | nil =>
        rw [List.length_nil] at notAhead
        omega
      | cons y after =>
        have flat := result.short y List.mem_cons_self
        have := used y (by simp [← whole])
        omega
    refine ⟨before, x, after ++ rest, by simp [← whole], reached, ?_⟩
    rw [nodeOfRank, slid, ok_bind, if_pos reached, pure_eq_ok]
  | succ level ih =>
    obtain ⟨before, x, after, slid, result⟩ :=
      slide_ok linked asked ended place tall fence inside (enough place)
    obtain ⟨rest, whole⟩ := result.fence.part
    have further : row = before ++ x :: (after ++ rest) := by simp [← whole]
    by_cases reached : before.length = target
    · refine ⟨before, x, after ++ rest, further, reached, ?_⟩
      rw [nodeOfRank, slid, ok_bind, if_pos reached, pure_eq_ok]
    · obtain ⟨early, y, past, parts, found, below⟩ := ih further (Nat.lt_of_succ_lt result.tall)
        (fence_lower result.fence (Nat.le_succ level)) ⟨after, by simp⟩
        (slid_rank result low high).1
      refine ⟨early, y, past, parts, found, ?_⟩
      rw [nodeOfRank, slid, ok_bind, if_neg reached, below]

theorem atRank_ok (laid : Laid list items) (rank : Nat) : list.atRank rank =
    .ok (if rank = 0 then none else (items[rank - 1]?).map Item.entry) := by
  have woven := laid.woven
  rw [atRank, laid.len]
  by_cases outside : rank = 0 ∨ items.length < rank
  · rw [if_pos outside]
    rcases outside with rfl | beyond
    · rfl
    · rw [if_neg (by omega), List.getElem?_eq_none (by omega)]
      rfl
  · rw [if_neg outside]
    have fits := length_le_size woven
    obtain ⟨before, t, after, parts, length, found⟩ := nodeOfRank_ok woven.linked
      (row_ended woven) (row_used woven.used) (by rw [length_row]; omega)
      (show rank < (row list.level items).length by rw [length_row]; omega)
      (show row list.level items = [] ++ _ from rfl) (Nat.lt_succ_self list.level) (fence_end _)
      (show [] ++ [_] <+: row list.level items from ⟨towers items, rfl⟩) (Nat.zero_le _)
    cases before with
    | nil => exact absurd (Or.inl length.symm) outside
    | cons first before =>
      obtain ⟨front, back, rfl, rfl, others⟩ :=
        List.map_eq_append_iff.mp (List.cons.inj parts).2
      obtain ⟨x, rest, rfl, rfl, -⟩ := List.map_eq_cons_iff.mp others
      have member : x ∈ front ++ x :: rest := by simp
      have reached : nodeOfRank list.nodes _ list.level start = .ok (some x.tower.slot) := found
      rw [reached, ok_bind]
      dsimp only
      rw [entryAt_ok (woven.entries x member), ← length]
      simp

end Ranks

section Ranges

variable [Ord K] {low high : K} {before after : List (Item K V)} {other : Array Stop}

theorem range_outside (laid : Laid list items) (outside : reaches low high items = false) :
    list.range low high = .ok ⟨list.nodes, tail, head, 0⟩ := by
  rw [range, overlaps_ok laid, outside]
  rfl

theorem range_ok (whole : front ++ back = items) (parts : before ++ after = items)
    (laid : Laid list items) (inside : reaches low high items = true)
    (first : Way list (fun k => (compare k low).isLT) front path)
    (second : Way list (fun k => (compare k high).isLE) before other) :
    list.range low high = .ok ⟨list.nodes, (onward 0 (towers back)).next, lastSlot before,
      before.length - front.length⟩ := by
  have reached := overlaps_ok laid low high
  rw [inside] at reached
  have laidFront : Laid list (front ++ back) := by rwa [whole]
  have laidBefore : Laid list (before ++ after) := by rwa [parts]
  rw [range, reached, ok_bind, if_pos rfl, seek_ok laidFront first, ok_bind,
    seek_ok laidBefore second, ok_bind, link_after laidFront, ok_bind, pure_eq_ok]

end Ranges

end MemIndex.SkipList
