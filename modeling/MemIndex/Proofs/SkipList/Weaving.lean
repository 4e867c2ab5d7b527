import MemIndex.Proofs.SkipList.Laid

/- What the views of the nodes must be for a row with one item more or one item less. The links
   that change are those of the stops: a stop links to the new node, or passes over it, or no
   longer does. -/
namespace MemIndex.SkipList

variable {K V γ : Type}

def behind (path : Array Stop) (row : List Tower) (level : Nat) : List Tower :=
  row.drop ((stopOf path level).rank + 1)

section Stops

variable {path : Array Stop} {row : List Tower} {top l : Nat}

theorem stopAt_ok (stopped : Stopped path row top) (low : l ≤ top) :
    stopAt path l = .ok (stopOf path l) := by
  obtain ⟨stop, found, -⟩ := stopped l low
  simp [stopAt, stopOf, found]

theorem stop_parts (stopped : Stopped path row top) (low : l ≤ top) :
    ∃ pre t, row = pre ++ t :: behind path row l ∧ l < t.height ∧
      Short l (behind path row l) ∧ stopOf path l = ⟨t.slot, pre.length⟩ := by
  obtain ⟨stop, found, pre, t, mid, parts, tall, short, rfl⟩ := stopped l low
  have same : stopOf path l = ⟨t.slot, pre.length⟩ := by simp [stopOf, found]
  have rest : behind path row l = mid := by
    unfold behind
    rw [same, parts]
    simp
  exact ⟨pre, t, by rw [rest]; exact parts, tall, by rw [rest]; exact short, same⟩

theorem stop_or_tall (stopped : Stopped path row top) (distinct : (row.map Tower.slot).Nodup)
    (low : l ≤ top) {pre mid : List Tower} {t : Tower} (parts : row = pre ++ t :: mid)
    (tall : l < t.height) :
    (t.slot = (stopOf path l).node ∧ mid = behind path row l) ∨
      t.slot ≠ (stopOf path l).node ∧ ∃ x ∈ mid, l < x.height := by
  obtain ⟨before, x, there, high, short, stop⟩ := stop_parts stopped low
  rcases first_tall l mid with none | ⟨first, y, after, rfl, above, -⟩
  · obtain ⟨-, rfl, rest⟩ := stop_unique parts tall none there high short
    exact Or.inl ⟨by rw [stop], rest⟩
  · refine Or.inr ⟨?_, y, by simp, above⟩
    rw [stop]
    intro same
    rw [there] at parts
    rw [there] at distinct
    rcases split_middle parts with ⟨m, e, -⟩ | ⟨-, -, e⟩ | ⟨m, -, e⟩
    · simp [e, List.nodup_append, same] at distinct
    · have := short y (by rw [← e]; simp)
      omega
    · simp [e, List.nodup_append, same] at distinct

theorem stop_apart (stopped : Stopped path row top) {others : List Nat}
    (distinct : (row.map Tower.slot ++ others).Nodup) (low : l ≤ top) {slot : Nat}
    (member : slot ∈ others) : (stopOf path l).node ≠ slot := by
  obtain ⟨pre, t, parts, -, -, stop⟩ := stop_parts stopped low
  have inRow : t.slot ∈ row.map Tower.slot := by
    rw [parts]
    simp
  rw [stop]
  exact (List.nodup_append.mp distinct).2.2 t.slot inRow slot member

end Stops

theorem line_perm (front back : List (Item K V)) (x : Item K V) :
    (head :: tail :: slots (front ++ x :: back)).Perm
      (x.tower.slot :: head :: tail :: slots (front ++ back)) := by
  have perm : (front ++ x :: back).Perm (x :: (front ++ back)) := List.perm_middle
  refine (((perm.map fun item => item.tower.slot).cons tail).cons head).trans ?_
  exact ((List.Perm.swap _ _ _).cons head).trans (List.Perm.swap _ _ _)

section Adding

variable {nodes last : Arena (Node K V)} {top maxLevels : Nat} {front back : List (Item K V)}
  {x : Item K V} {path : Array Stop}

structure Added (nodes last : Arena (Node K V)) (path : Array Stop) (top : Nat)
    (front back : List (Item K V)) (x : Item K V) : Prop where
  sound : last.Sound
  size : last.len = nodes.len + 1
  entry : ∀ slot, entryOf last slot =
    if slot = x.tower.slot then some (some x.entry) else entryOf nodes slot
  height : ∀ slot, heightOf last slot =
    if slot = x.tower.slot then some x.tower.height else heightOf nodes slot
  previous : ∀ slot, previousOf last slot =
    if slot = (onward 0 (towers back)).next then some x.tower.slot
    else if slot = x.tower.slot then some (stopOf path 0).node else previousOf nodes slot
  new : ∀ l, l < x.tower.height → linkOf last x.tower.slot l = some (onward l (towers back))
  link : ∀ slot l, slot ≠ x.tower.slot → linkOf last slot l =
    if l ≤ top ∧ slot = (stopOf path l).node then
      some (onward l (behind path (row top front) l ++ x.tower :: towers back))
    else linkOf nodes slot l

variable (woven : Woven nodes top maxLevels (front ++ back))
  (below : ∀ item ∈ front ++ back, item.tower.height ≤ top + 1)
  (stopped : Stopped path (row top front) top)
  (fresh : heightOf nodes x.tower.slot = none)

include woven fresh in
theorem fresh_slot : x.tower.slot ∉ head :: tail :: slots (front ++ back) :=
  (woven.occupied _).mp fresh

include woven below stopped fresh

theorem linked_added (added : Added nodes last path top front back x) :
    Linked last (row top (front ++ x :: back)) := by
  have unseen := fresh_slot woven fresh
  have distinct := row_distinct woven
  have linked := woven.linked
  rw [row_append] at linked distinct
  rw [row_append, towers_cons]
  have members : ∀ t ∈ row top front ++ towers back, t.slot ≠ x.tower.slot ∧
      t.height ≤ top + 1 := by
    intro t member
    rw [← row_append] at member
    rcases List.mem_cons.mp member with rfl | inItems
    · constructor
      · intro same
        exact unseen (by simp [← same])
      · exact Nat.le_refl _
    · obtain ⟨item, inside, rfl⟩ := item_of_tower inItems
      constructor
      · intro same
        apply unseen
        rw [← same]
        exact slot_in_store inside
      · exact below item inside
  rw [List.map_append] at distinct
  have frontDistinct := (List.nodup_append.mp distinct).1
  intro pre t post parts l tall
  rcases split_middle parts with ⟨mid, here, rfl⟩ | ⟨-, rfl, rfl⟩ | ⟨mid, -, there⟩
  · obtain ⟨differ, high⟩ := members t (by simp [here])
    have low : l ≤ top := by omega
    rw [added.link t.slot l differ]
    rcases stop_or_tall stopped frontDistinct low here tall with ⟨same, rfl⟩ |
      ⟨other, y, inMid, above⟩
    · rw [if_pos ⟨low, same⟩]
    · rw [if_neg (fun both => other both.2)]
      rw [linked pre t (mid ++ towers back) (by simp [here]) l tall]
      rw [onward_cut inMid above]
  · exact added.new l tall
  · obtain ⟨differ, high⟩ := members t (by simp [there])
    have low : l ≤ top := by omega
    have inBack : t.slot ∈ (towers back).map Tower.slot := by
      rw [there]
      simp
    have other := stop_apart stopped distinct low inBack
    rw [added.link t.slot l differ, if_neg (fun both => other both.2.symm)]
    exact linked (row top front ++ mid) t post (by simp [there]) l tall

omit below in
theorem backed_added (added : Added nodes last path top front back x) :
    Backed last (slots (front ++ x :: back)) := by
  have unseen := fresh_slot woven fresh
  rw [← mem_line] at unseen
  have distinct := line_distinct woven
  have backed : List.IsChain (fun a b => previousOf nodes b = some a) (line (front ++ back)) :=
    woven.backed
  obtain ⟨ahead, next⟩ := line_next fun item member =>
    woven.used item (List.mem_append_right front member)
  obtain ⟨past, latest⟩ := line_lastSlot front
  have lowest := lowest_stop
    (fun item member => woven.used item (List.mem_append_left back member)) stopped
  rw [line_append, next, latest] at unseen distinct backed
  rw [List.append_assoc, List.singleton_append] at unseen distinct backed
  have goal : line (front ++ x :: back) = past ++ lastSlot front :: x.tower.slot ::
      (onward 0 (towers back)).next :: ahead := by
    rw [line_append, latest, slots_cons, List.cons_append, next, List.append_assoc]
    rfl
  change List.IsChain (fun a b => previousOf last b = some a) (line (front ++ x :: back))
  rw [goal]
  simp only [List.mem_append, List.mem_cons, not_or] at unseen
  simp only [List.nodup_append, List.nodup_cons, List.mem_cons, not_or] at distinct
  apply chain_insert backed
  · intro p q member same
    have inPast := List.mem_of_mem_tail member
    have notNew : q ≠ x.tower.slot := by
      rintro rfl
      rcases List.mem_append.mp inPast with earlier | atStop
      · exact unseen.1 earlier
      · exact unseen.2.1 (List.mem_singleton.mp atStop)
    have notNext : q ≠ (onward 0 (towers back)).next := by
      rintro rfl
      rcases List.mem_append.mp inPast with earlier | atStop
      · exact distinct.2.2 _ earlier _ (Or.inr (Or.inl rfl)) rfl
      · exact distinct.2.1.1.1 (List.mem_singleton.mp atStop).symm
    rw [added.previous, if_neg notNext, if_neg notNew]
    exact same
  · intro p q member same
    have notNew : q ≠ x.tower.slot := by
      rintro rfl
      exact unseen.2.2.2 member
    have notNext : q ≠ (onward 0 (towers back)).next := by
      rintro rfl
      exact distinct.2.1.2.1 member
    rw [added.previous, if_neg notNext, if_neg notNew]
    exact same
  · rw [added.previous, if_neg unseen.2.2.1, if_pos rfl, lowest]
  · rw [added.previous, if_pos rfl]

theorem woven_added (added : Added nodes last path top front back x)
    (inUse : 0 < x.tower.height) : Woven last top maxLevels (front ++ x :: back) := by
  have unseen := fresh_slot woven fresh
  have notHead : head ≠ x.tower.slot := by
    intro same
    exact unseen (by simp [← same])
  have notTail : tail ≠ x.tower.slot := by
    intro same
    exact unseen (by simp [← same])
  have others : ∀ item ∈ front ++ back, item.tower.slot ≠ x.tower.slot := by
    intro item member same
    apply unseen
    rw [← same]
    exact slot_in_store member
  have perm : (front ++ x :: back).Perm (x :: (front ++ back)) := List.perm_middle
  have slotsPerm := line_perm front back x
  constructor
  · exact added.sound
  · rw [added.size, woven.size, perm.length_eq, List.length_cons]
  · intro slot
    rw [added.height, slotsPerm.mem_iff]
    by_cases same : slot = x.tower.slot
    · simp [same]
    · rw [if_neg same, woven.occupied slot]
      simp [same]
  · rw [slotsPerm.nodup_iff]
    exact List.nodup_cons.mpr ⟨unseen, woven.distinct⟩
  · exact linked_added woven below stopped fresh added
  · exact backed_added woven stopped fresh added
  · rw [added.height, if_neg notHead]
    exact woven.headHeight
  · rw [added.entry, added.entry, if_neg notHead, if_neg notTail]
    exact woven.ends
  · intro item member
    rw [added.entry]
    rcases List.mem_cons.mp (perm.mem_iff.mp member) with rfl | other
    · rw [if_pos rfl]
    · rw [if_neg (others item other)]
      exact woven.entries item other
  · intro item member
    rw [added.height]
    rcases List.mem_cons.mp (perm.mem_iff.mp member) with rfl | other
    · rw [if_pos rfl]
    · rw [if_neg (others item other)]
      exact woven.heights item other
  · intro item member
    rcases List.mem_cons.mp (perm.mem_iff.mp member) with rfl | other
    · exact inUse
    · exact woven.used item other

end Adding

section Dropping

variable {nodes last : Arena (Node K V)} {top maxLevels : Nat} {front back : List (Item K V)}
  {x : Item K V} {path : Array Stop}

structure Dropped (nodes last : Arena (Node K V)) (path : Array Stop) (top : Nat)
    (front back : List (Item K V)) (x : Item K V) : Prop where
  sound : last.Sound
  size : last.len + 1 = nodes.len
  entry : ∀ slot, entryOf last slot = if slot = x.tower.slot then none else entryOf nodes slot
  height : ∀ slot, heightOf last slot = if slot = x.tower.slot then none else heightOf nodes slot
  previous : ∀ slot, slot ≠ x.tower.slot → previousOf last slot =
    if slot = (onward 0 (towers back)).next then some (stopOf path 0).node
    else previousOf nodes slot
  link : ∀ slot l, slot ≠ x.tower.slot → linkOf last slot l =
    if l ≤ top ∧ slot = (stopOf path l).node then
      some (onward l (behind path (row top front) l ++ towers back))
    else linkOf nodes slot l

variable (woven : Woven nodes top maxLevels (front ++ x :: back))
  (below : ∀ item ∈ front ++ x :: back, item.tower.height ≤ top + 1)
  (stopped : Stopped path (row top front) top)

include woven below stopped

theorem linked_dropped (dropped : Dropped nodes last path top front back x) :
    Linked last (row top (front ++ back)) := by
  have distinct := row_distinct woven
  have linked := woven.linked
  rw [row_append, towers_cons] at linked distinct
  rw [row_append]
  rw [List.map_append, List.map_cons] at distinct
  have frontDistinct := (List.nodup_append.mp distinct).1
  have apart := (List.nodup_append.mp distinct).2.2
  have backDistinct := List.nodup_cons.mp (List.nodup_append.mp distinct).2.1
  have low : ∀ t ∈ row top front ++ towers back, t.height ≤ top + 1 := by
    intro t member
    rw [← row_append] at member
    rcases List.mem_cons.mp member with rfl | inItems
    · exact Nat.le_refl _
    · obtain ⟨item, inside, rfl⟩ := item_of_tower inItems
      apply below item
      rcases List.mem_append.mp inside with inFront | inBack
      · exact List.mem_append_left _ inFront
      · exact List.mem_append_right _ (List.mem_cons_of_mem _ inBack)
  intro pre t post parts l tall
  rcases split_append parts with ⟨mid, here, rfl⟩ | ⟨mid, -, there⟩
  · have differ : t.slot ≠ x.tower.slot := by
      apply apart _ (List.mem_map_of_mem (by rw [here]; simp)) _ List.mem_cons_self
    have onTop : l ≤ top := by
      have := low t (by simp [here])
      omega
    rw [dropped.link t.slot l differ]
    rcases stop_or_tall stopped frontDistinct onTop here tall with ⟨same, rfl⟩ |
      ⟨other, y, inMid, above⟩
    · rw [if_pos ⟨onTop, same⟩]
    · rw [if_neg (fun both => other both.2)]
      rw [linked pre t (mid ++ x.tower :: towers back) (by simp [here]) l tall]
      rw [onward_cut inMid above]
  · have inBack : t ∈ towers back := by
      rw [there]
      simp
    have differ : t.slot ≠ x.tower.slot := by
      intro same
      exact backDistinct.1 (same ▸ List.mem_map_of_mem inBack)
    have onTop : l ≤ top := by
      have := low t (List.mem_append_right _ inBack)
      omega
    have other := stop_apart stopped distinct onTop
      (List.mem_cons_of_mem _ (List.mem_map_of_mem inBack))
    rw [dropped.link t.slot l differ, if_neg (fun both => other both.2.symm)]
    exact linked (row top front ++ x.tower :: mid) t post (by simp [there]) l tall

omit below in
theorem backed_dropped (dropped : Dropped nodes last path top front back x) :
    Backed last (slots (front ++ back)) := by
  have distinct := line_distinct woven
  have backed : List.IsChain (fun a b => previousOf nodes b = some a) (line (front ++ x :: back)) :=
    woven.backed
  obtain ⟨ahead, next⟩ := line_next fun item member =>
    woven.used item (List.mem_append_right front (List.mem_cons_of_mem _ member))
  obtain ⟨past, latest⟩ := line_lastSlot front
  have lowest := lowest_stop
    (fun item member => woven.used item (List.mem_append_left (x :: back) member)) stopped
  rw [line_append, latest, slots_cons, List.cons_append, next] at distinct backed
  rw [List.append_assoc, List.singleton_append] at distinct backed
  have goal : line (front ++ back) =
      past ++ lastSlot front :: (onward 0 (towers back)).next :: ahead := by
    rw [line_append, latest, next, List.append_assoc]
    rfl
  change List.IsChain (fun a b => previousOf last b = some a) (line (front ++ back))
  rw [goal]
  simp only [List.nodup_append, List.nodup_cons, List.mem_cons, not_or] at distinct
  apply chain_remove backed
  · intro p q member same
    have inPast := List.mem_of_mem_tail member
    have notOld : q ≠ x.tower.slot := by
      rintro rfl
      rcases List.mem_append.mp inPast with earlier | atStop
      · exact distinct.2.2 _ earlier _ (Or.inr (Or.inl rfl)) rfl
      · exact distinct.2.1.1.1 (List.mem_singleton.mp atStop).symm
    have notNext : q ≠ (onward 0 (towers back)).next := by
      rintro rfl
      rcases List.mem_append.mp inPast with earlier | atStop
      · exact distinct.2.2 _ earlier _ (Or.inr (Or.inr (Or.inl rfl))) rfl
      · exact distinct.2.1.1.2.1 (List.mem_singleton.mp atStop).symm
    rw [dropped.previous q notOld, if_neg notNext]
    exact same
  · intro p q member same
    have notOld : q ≠ x.tower.slot := by
      rintro rfl
      exact distinct.2.1.2.1.2 member
    have notNext : q ≠ (onward 0 (towers back)).next := by
      rintro rfl
      exact distinct.2.1.2.2.1 member
    rw [dropped.previous q notOld, if_neg notNext]
    exact same
  · have notOld : (onward 0 (towers back)).next ≠ x.tower.slot := by
      intro same
      exact distinct.2.1.2.1.1 same.symm
    rw [dropped.previous _ notOld, if_pos rfl, lowest]

theorem woven_dropped (dropped : Dropped nodes last path top front back x) :
    Woven last top maxLevels (front ++ back) := by
  have perm : (front ++ x :: back).Perm (x :: (front ++ back)) := List.perm_middle
  have slotsPerm := line_perm front back x
  obtain ⟨absent, distinct⟩ := List.nodup_cons.mp (slotsPerm.nodup_iff.mp woven.distinct)
  have notHead : head ≠ x.tower.slot := by
    intro same
    exact absent (by simp [← same])
  have notTail : tail ≠ x.tower.slot := by
    intro same
    exact absent (by simp [← same])
  have kept : ∀ item ∈ front ++ back, item ∈ front ++ x :: back ∧
      item.tower.slot ≠ x.tower.slot := by
    intro item member
    constructor
    · exact perm.mem_iff.mpr (List.mem_cons_of_mem _ member)
    · intro same
      apply absent
      rw [← same]
      exact slot_in_store member
  constructor
  · exact dropped.sound
  · have size := woven.size
    have less := dropped.size
    rw [perm.length_eq, List.length_cons] at size
    omega
  · intro slot
    rw [dropped.height]
    by_cases same : slot = x.tower.slot
    · simp only [if_pos same, true_iff]
      rw [same]
      exact absent
    · rw [if_neg same, woven.occupied slot, slotsPerm.mem_iff]
      simp [same]
  · exact distinct
  · exact linked_dropped woven below stopped dropped
  · exact backed_dropped woven stopped dropped
  · rw [dropped.height, if_neg notHead]
    exact woven.headHeight
  · rw [dropped.entry, dropped.entry, if_neg notHead, if_neg notTail]
    exact woven.ends
  · intro item member
    rw [dropped.entry, if_neg (kept item member).2]
    exact woven.entries item (kept item member).1
  · intro item member
    rw [dropped.height, if_neg (kept item member).2]
    exact woven.heights item (kept item member).1
  · intro item member
    exact woven.used item (kept item member).1

end Dropping

section Levels

variable {nodes : Arena (Node K V)} {top maxLevels : Nat} {items : List (Item K V)}

/-- Levels that only the head takes part in may be given up. -/
theorem woven_lower (woven : Woven nodes top maxLevels items) {lower : Nat} (le : lower ≤ top) :
    Woven nodes lower maxLevels items := by
  obtain ⟨atHead, atItems⟩ := linked_row.mp woven.linked
  have linked : Linked nodes (row lower items) :=
    linked_row.mpr ⟨fun l low => atHead l (Nat.le_trans low le), atItems⟩
  exact woven_relinked woven (relinked_refl woven.sound) linked

end Levels

end MemIndex.SkipList
