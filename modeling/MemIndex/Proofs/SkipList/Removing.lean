import MemIndex.Proofs.SkipList.Inserting
import MemIndex.Proofs.SkipList.Seeking

/- Removing an entry: its slot is released first, then the stops of all levels are led past it, and
   then the levels that nothing takes part in any more are given up. -/
namespace MemIndex.SkipList

variable {K V γ : Type}

section Bypassing

variable {nodes : Arena (Node K V)} {top maxLevels : Nat} {front back : List (Item K V)}
  {x : Item K V} {path : Array Stop}

theorem onward_ne (distinct : (slots (x :: back)).Nodup) (notTail : x.tower.slot ≠ tail)
    (level : Nat) : (onward level (towers back)).next ≠ x.tower.slot := by
  have absent := (List.nodup_cons.mp distinct).1
  rcases onward_next level (towers back) with ended | ⟨t, member, -, next⟩
  · rw [ended]
    exact fun same => notTail same.symm
  · rw [next]
    intro same
    apply absent
    change x.tower.slot ∈ slots back
    rw [← same, ← map_slot_towers]
    exact List.mem_map_of_mem member

theorem bypass_ok (stopped : Stopped path (row top front) top)
    (distinct : (slots (x :: back)).Nodup) (notTail : x.tower.slot ≠ tail) {removed : Node K V}
    (links : ∀ l, l < x.tower.height → removed.links[l]? = some (onward l (towers back)))
    {now : Arena (Node K V)} {l : Nat} (low : l ≤ top)
    (held : linkOf now (stopOf path l).node l =
      some (onward l (behind path (row top front) l ++ towers (x :: back)))) :
    bypass path x.tower.slot removed now l = setLink now (stopOf path l).node l
      (onward l (behind path (row top front) l ++ towers back)) := by
  obtain ⟨-, -, -, -, short, -⟩ := stop_parts stopped low
  simp only [bypass, stopAt_ok stopped low, linkAt_ok held, ok_bind]
  rw [onward_short short, onward_short short, towers_cons]
  by_cases tall : l < x.tower.height
  · rw [onward_tall tall, if_pos rfl, links l tall]
    have less : 1 + (behind path (row top front) l).length + (onward l (towers back)).span =
        (onward l (towers back)).span + (behind path (row top front) l).length + 1 := by
      omega
    simp only [less, subtract_add, ok_bind]
  · rw [onward, if_neg tall, if_neg (onward_ne distinct notTail l)]
    simp only [Nat.add_right_comm _ 1, subtract_add, ok_bind]

end Bypassing

section Lowering

variable {nodes : Arena (Node K V)} {top maxLevels level : Nat} {items : List (Item K V)}

theorem occupied_ok (woven : Woven nodes top maxLevels items) (le : level ≤ top)
    (below : ∀ item ∈ items, item.tower.height ≤ level + 1) :
    ∃ lowered, occupiedLevel nodes level = .ok lowered ∧ lowered ≤ level ∧
      (∀ item ∈ items, item.tower.height ≤ lowered + 1) ∧
      (lowered = 0 ∨ ∃ item ∈ items, item.tower.height = lowered + 1) := by
  induction level with
  | zero => exact ⟨0, rfl, Nat.le_refl _, below, Or.inl rfl⟩
  | succ level ih =>
    have link := (linked_row.mp woven.linked).1 (level + 1) le
    unfold occupiedLevel
    simp only [linkAt_ok link, ok_bind]
    rcases first_tall (level + 1) (towers items) with short | ⟨before, t, after, parts, tall, short⟩
    · rw [if_pos (by rw [onward_of_short short])]
      obtain ⟨lowered, done, less, fits, tallest⟩ := ih (Nat.le_of_succ_le le) (by
        intro item member
        exact short item.tower (List.mem_map_of_mem member))
      exact ⟨lowered, done, Nat.le_succ_of_le less, fits, tallest⟩
    · have member : t ∈ towers items := by
        rw [parts]
        simp
      obtain ⟨item, inside, rfl⟩ := item_of_tower member
      have onItem : (onward (level + 1) (towers items)).next = item.tower.slot := by
        rw [parts, onward_short short, onward_tall tall]
      have notTail : ¬ (onward (level + 1) (towers items)).next = tail := by
        rw [onItem]
        exact (slots_ne woven (List.mem_map_of_mem inside)).2
      rw [if_neg notTail]
      have := below item inside
      exact ⟨level + 1, rfl, Nat.le_refl _, below, Or.inr ⟨item, inside, by omega⟩⟩

end Lowering

section Unweaving

variable {nodes : Arena (Node K V)} {top maxLevels : Nat} {front back : List (Item K V)}
  {x : Item K V} {path : Array Stop}

theorem node_of_item (woven : Woven nodes top maxLevels (front ++ x :: back)) :
    ∃ node, nodes.get? x.tower.slot = some node ∧ node.entry = some x.entry ∧
      ∀ l, l < x.tower.height → node.links[l]? = some (onward l (towers back)) := by
  have middle : x ∈ front ++ x :: back := by simp
  obtain ⟨node, held, -⟩ := Option.map_eq_some_iff.mp (woven.heights x middle)
  refine ⟨node, held, ?_, ?_⟩
  · simpa [entryOf, held] using woven.entries x middle
  · intro l tall
    have link := woven.linked (row top front) x.tower (towers back)
      (by rw [row_append, towers_cons]) l tall
    simpa [linkOf, held] using link

theorem bypassed_ok (woven : Woven nodes top maxLevels (front ++ x :: back))
    (stopped : Stopped path (row top front) top) {removed : Node K V}
    (links : ∀ l, l < x.tower.height → removed.links[l]? = some (onward l (towers back)))
    {taken : Arena (Node K V)} (sound : taken.Sound)
    (replaced : Replaced nodes taken x.tower.slot none) :
    ∃ bypassed, (List.range (top + 1)).foldlM (bypass path x.tower.slot removed) taken =
        .ok bypassed ∧
      Relinked taken bypassed ∧ ∀ slot l, slot ≠ x.tower.slot → linkOf bypassed slot l =
        if l ≤ top ∧ slot = (stopOf path l).node then
          some (onward l (behind path (row top front) l ++ towers back))
        else linkOf nodes slot l := by
  have distinct := row_distinct woven
  rw [row_append, List.map_append, map_slot_towers] at distinct
  have behindDistinct := (List.nodup_append.mp distinct).2.1
  have notTail := (slots_ne woven (List.mem_map_of_mem (show x ∈ _ by simp))).2
  have stopsHeld : ∀ l, l ≤ top → linkOf taken (stopOf path l).node l =
      some (onward l (behind path (row top front) l ++ towers (x :: back))) := by
    intro l low
    rw [replaced.link, if_neg (stop_apart stopped distinct low List.mem_cons_self)]
    exact stop_link stopped woven low
  have inRange : ∀ l, l ∈ List.range (top + 1) → l ≤ top := by
    intro l member
    exact Nat.le_of_lt_succ (List.mem_range.mp member)
  obtain ⟨bypassed, done, relinked, finalLinks⟩ :=
    @relinked_levels K V (bypass path x.tower.slot removed) taken sound
      (List.range (top + 1)) List.nodup_range (fun l => (stopOf path l).node)
      (fun l => onward l (behind path (row top front) l ++ towers back))
      (fun l member => ⟨_, stopsHeld l (inRange l member)⟩)
      (fun l member now same => bypass_ok stopped behindDistinct notTail links
        (inRange l member) ((same _).trans (stopsHeld l (inRange l member))))
  refine ⟨bypassed, done, relinked, ?_⟩
  intro slot l away
  rw [finalLinks, replaced.link, if_neg away]
  simp only [List.mem_range, Nat.lt_succ_iff]

theorem unweave_ok (woven : Woven nodes top maxLevels (front ++ x :: back))
    (below : ∀ item ∈ front ++ x :: back, item.tower.height ≤ top + 1)
    (stopped : Stopped path (row top front) top) :
    ∃ removed taken bypassed last, nodes.take x.tower.slot = .ok (removed, taken) ∧
      removed.entry = some x.entry ∧
      (List.range (top + 1)).foldlM (bypass path x.tower.slot removed) taken = .ok bypassed ∧
      removed.links[0]? = some (onward 0 (towers back)) ∧
      setPrevious bypassed (onward 0 (towers back)).next (stopOf path 0).node = .ok last ∧
      Woven last top maxLevels (front ++ back) := by
  have middle : x ∈ front ++ x :: back := by simp
  obtain ⟨removed, held, entry, links⟩ := node_of_item woven
  obtain ⟨taken, released, takenSound, view, takenLen⟩ := Arena.take_ok woven.sound held
  have replaced := replaced_of_view view
  obtain ⟨bypassed, done, relinked, finalLinks⟩ :=
    bypassed_ok woven stopped links takenSound replaced
  have slotsDistinct := (List.nodup_cons.mp (List.nodup_cons.mp woven.distinct).2).2
  rw [slots_append] at slotsDistinct
  have notTail := (slots_ne woven (List.mem_map_of_mem middle)).2
  have differ := onward_ne (List.nodup_append.mp slotsDistinct).2.1 notTail 0
  obtain ⟨old, before⟩ := @next_in_line K V nodes top maxLevels (front ++ [x]) back (by
    rw [List.append_assoc]
    exact woven)
  have beforeStill : previousOf bypassed (onward 0 (towers back)).next = some old := by
    rw [relinked.previous, replaced.previous, if_neg differ]
    exact before
  obtain ⟨last, finished, lastSound, lastLen, sameLink, sameEntry, sameHeight, previous⟩ :=
    setPrevious_ok relinked.sound beforeStill (stopOf path 0).node
  have dropped : Dropped nodes last path top front back x := by
    constructor
    · exact lastSound
    · rw [lastLen, relinked.len, takenLen]
    · intro other
      rw [sameEntry, relinked.entry, replaced.entry]
      rfl
    · intro other
      rw [sameHeight, relinked.height, replaced.height]
      rfl
    · intro other away
      rw [previous, relinked.previous, replaced.previous, if_neg away]
    · intro other l away
      rw [sameLink]
      exact finalLinks other l away
  exact ⟨removed, taken, bypassed, last, released, entry, done,
    links 0 (woven.used x middle), finished, woven_dropped woven below stopped dropped⟩

end Unweaving

section Whole

variable {list : SkipList K V γ} {front back : List (Item K V)}

variable [Ord K] {key : K} {path : Array Stop}
  (way : Way list (fun k => (compare k key).isLT) front path)

include way

theorem remove_absent (laid : Laid list (front ++ back))
    (other : ∀ x rest, back = x :: rest → (compare x.entry.1 key).isNe = true) :
    list.remove key = .ok ⟨none, list, []⟩ := by
  have atZero := stopAt_ok way.stopped (Nat.zero_le _)
  simp only [remove, path_ok laid way, atZero, link_stop laid way, ok_bind]
  rcases next_cases laid with ⟨-, atTail⟩ | ⟨x, rest, parts, next, notTail, entry⟩
  · rw [if_pos atTail]
    rfl
  · rw [next, if_neg notTail, keyAt_ok entry, ok_bind, if_pos (other x rest parts)]
    rfl

theorem remove_ok {x : Item K V} (laid : Laid list (front ++ x :: back))
    (equal : compare x.entry.1 key = .eq) :
    ∃ outcome, list.remove key = .ok outcome ∧ outcome.answer = some x.entry ∧
      Laid outcome.state (front ++ back) := by
  have descended := path_ok laid way
  have atZero := stopAt_ok way.stopped (Nat.zero_le _)
  have linked := link_stop laid way
  have middle : x ∈ front ++ x :: back := by simp
  have used := laid.woven.used x middle
  have notTail := (slots_ne laid.woven (List.mem_map_of_mem middle)).2
  have same : ¬ (compare x.entry.1 key).isNe = true := by
    rw [equal]
    decide
  rw [towers_cons, onward_tall used] at linked
  obtain ⟨removed, taken, bypassed, last, released, entry, done, onLevel, finished, woven⟩ :=
    unweave_ok laid.woven laid.below way.stopped
  have kept : ∀ item ∈ front ++ back, item ∈ front ++ x :: back := by
    intro item member
    exact List.perm_middle.mem_iff.mpr (List.mem_cons_of_mem _ member)
  obtain ⟨lowered, occupied, le, below, top⟩ := occupied_ok woven (Nat.le_refl _)
    (fun item member => laid.below item (kept item member))
  have len : list.len = (front ++ back).length + 1 := by
    rw [laid.len, List.perm_middle.length_eq, List.length_cons]
  refine ⟨⟨some x.entry,
    { list with nodes := last, level := lowered, len := (front ++ back).length },
    if lowered = list.level then [] else [.lowered list.level lowered]⟩, ?_, rfl, ?_⟩
  · simp only [remove, descended, atZero, linked, if_neg notTail,
      keyAt_ok (laid.woven.entries x middle), if_neg same, released, done, onLevel, finished,
      occupied, len, subtract_add, entry, ok_bind, pure_eq_ok]
  · exact ⟨woven_lower woven le, rfl, below, top, Nat.lt_of_le_of_lt le laid.room,
      laid.limit⟩

end Whole

end MemIndex.SkipList
