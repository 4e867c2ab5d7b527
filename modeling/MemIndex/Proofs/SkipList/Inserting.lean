import MemIndex.Proofs.SkipList.Weaving

/- Adding an entry: levels are opened first, then the new node is stored with its links, and then
   the stops of all levels are led to it or over it. -/
namespace MemIndex.SkipList

variable {K V γ : Type}

theorem drawLevel_le [DrawSource γ] (threshold levels : Nat) (draws : γ) :
    (drawLevel threshold levels draws).1 ≤ levels := by
  induction levels generalizing draws with
  | zero => exact Nat.le_refl _
  | succ levels ih =>
    unfold drawLevel
    dsimp only
    split
    · exact Nat.succ_le_succ (ih _)
    · exact Nat.zero_le _

section Raising

variable {nodes : Arena (Node K V)} {top level maxLevels : Nat} {items front : List (Item K V)}

theorem link_present {slot height l : Nat} (tall : heightOf nodes slot = some height)
    (inside : l < height) : ∃ link, linkOf nodes slot l = some link := by
  obtain ⟨node, here, rfl⟩ := Option.map_eq_some_iff.mp tall
  exact ⟨node.links[l], by simp [linkOf, here, inside]⟩

theorem woven_raise (woven : Woven nodes top maxLevels items)
    (below : ∀ item ∈ items, item.tower.height ≤ top + 1) (room : level < maxLevels) :
    ∃ changed, (List.range' (top + 1) (level - top)).foldlM (openLevel items.length) nodes =
        .ok changed ∧ Woven changed (max top level) maxLevels items := by
  let fresh := List.range' (top + 1) (level - top)
  have present : ∀ l ∈ fresh, ∃ old, linkOf nodes head l = some old := by
    intro l member
    rw [List.mem_range'_1] at member
    exact link_present woven.headHeight (by omega)
  obtain ⟨changed, done, relinked, view⟩ :=
    @relinked_levels K V (openLevel items.length) nodes woven.sound fresh List.nodup_range'
      (fun _ => head) (fun _ => ⟨tail, items.length⟩) present (fun _ _ _ _ => rfl)
  refine ⟨changed, done, ?_⟩
  have linked : Linked changed (row (max top level) items) := by
    obtain ⟨atHead, atItems⟩ := linked_row.mp woven.linked
    apply linked_row.mpr
    constructor
    · intro l low
      rw [view]
      by_cases opened : l ∈ fresh
      · rw [if_pos ⟨opened, rfl⟩, onward_of_short, towers, List.length_map]
        intro t member
        obtain ⟨item, inside, rfl⟩ := item_of_tower member
        have := below item inside
        rw [List.mem_range'_1] at opened
        omega
      · rw [if_neg (fun both => opened both.1)]
        rw [List.mem_range'_1] at opened
        exact atHead l (by omega)
    · intro pre t post parts l tall
      have inItems : t.slot ∈ slots items := by
        rw [← map_slot_towers, parts]
        simp
      rw [view, if_neg (fun both => (slots_ne woven inItems).1 both.2)]
      exact atItems pre t post parts l tall
  exact woven_relinked woven relinked linked

theorem stopped_raise {path : Array Stop} (size : path.size = top + 1)
    (stopped : Stopped path (row top front) top)
    (below : ∀ item ∈ front, item.tower.height ≤ top + 1) :
    Stopped (path ++ Array.replicate (level - top) start) (row (max top level) front)
      (max top level) := by
  intro l low
  by_cases old : l ≤ top
  · obtain ⟨stop, found, pre, t, mid, parts, tall, short, rfl⟩ := stopped l old
    have inside : l < path.size := by omega
    have foundStill : (path ++ Array.replicate (level - top) start)[l]? =
        some ⟨t.slot, pre.length⟩ := by
      rw [Array.getElem?_append_left inside, found]
    cases pre with
    | nil =>
      obtain ⟨rfl, rfl⟩ := List.cons.inj parts
      refine ⟨_, foundStill, [], ⟨head, max top level + 1⟩, towers front, rfl, ?_, short, rfl⟩
      change l < max top level + 1
      omega
    | cons first pre =>
      obtain ⟨-, rest⟩ := List.cons.inj parts
      refine ⟨_, foundStill, ⟨head, max top level + 1⟩ :: pre, t, mid, ?_, tall, short, rfl⟩
      unfold row
      rw [rest]
      rfl
  · refine ⟨start, ?_, [], ⟨head, max top level + 1⟩, towers front, rfl, ?_, ?_, rfl⟩
    · rw [Array.getElem?_append_right (by omega), Array.getElem?_replicate, if_pos (by omega)]
    · change l < max top level + 1
      omega
    · intro t member
      obtain ⟨item, inside, rfl⟩ := item_of_tower member
      have := below item inside
      omega

end Raising

section Splicing

variable {nodes : Arena (Node K V)} {top level maxLevels : Nat} {front back : List (Item K V)}
  {path : Array Stop} (stopped : Stopped path (row top front) top)

include stopped

theorem stop_link (woven : Woven nodes top maxLevels (front ++ back)) {l : Nat} (low : l ≤ top) :
    linkOf nodes (stopOf path l).node l =
      some (onward l (behind path (row top front) l ++ towers back)) := by
  obtain ⟨pre, t, parts, tall, -, stop⟩ := stop_parts stopped low
  have linked := woven.linked
  rw [row_append] at linked
  rw [stop]
  apply linked pre t _ _ l tall
  rw [← List.cons_append, ← List.append_assoc, ← parts]

theorem rank_behind {l : Nat} (low : l ≤ top) :
    (stopOf path l).rank + (behind path (row top front) l).length = front.length := by
  obtain ⟨pre, t, parts, -, -, stop⟩ := stop_parts stopped low
  have total := congrArg List.length parts
  rw [length_row, List.length_append, List.length_cons] at total
  rw [stop]
  change pre.length + _ = _
  omega

theorem passed_ok {l : Nat} (low : l ≤ top) : subtract front.length (stopOf path l).rank =
    .ok (behind path (row top front) l).length := by
  rw [← rank_behind stopped low, Nat.add_comm]
  exact subtract_add _ _

theorem linkBehind_ok (woven : Woven nodes top maxLevels (front ++ back)) {l : Nat}
    (low : l ≤ top) : linkBehind nodes path front.length l = .ok (onward l (towers back)) := by
  obtain ⟨-, -, -, -, short, -⟩ := stop_parts stopped low
  have cut := linkAt_ok (stop_link stopped woven low)
  rw [onward_short short] at cut
  simp [linkBehind, stopAt_ok stopped low, cut, passed_ok stopped low, subtract_add]

def linkOver (path : Array Stop) (top : Nat) (front : List (Item K V)) (x : Tower)
    (back : List (Item K V)) (level : Nat) : Link :=
  onward level (behind path (row top front) level ++ x :: towers back)

theorem lead_ok (now : Arena (Node K V)) {x : Tower} {l : Nat} (low : l ≤ top)
    (tall : l < x.height) (back : List (Item K V)) : lead path front.length x.slot now l =
      setLink now (stopOf path l).node l (linkOver path top front x back l) := by
  obtain ⟨-, -, -, -, short, -⟩ := stop_parts stopped low
  unfold linkOver
  rw [onward_short short, onward_tall tall, Nat.add_comm]
  simp only [lead, stopAt_ok stopped low, passed_ok stopped low, ok_bind]

theorem lengthen_ok {now : Arena (Node K V)} {x : Tower} {l : Nat} (low : l ≤ top)
    (short : x.height ≤ l) (held : linkOf now (stopOf path l).node l =
      some (onward l (behind path (row top front) l ++ towers back))) :
    lengthen path now l =
      setLink now (stopOf path l).node l (linkOver path top front x back l) := by
  obtain ⟨-, -, -, -, rest, -⟩ := stop_parts stopped low
  simp only [lengthen, stopAt_ok stopped low, linkAt_ok held, ok_bind]
  rw [linkOver, onward_short rest, onward_short rest, onward, if_neg (Nat.not_lt.mpr short)]
  dsimp only
  rw [Nat.add_right_comm]

theorem splice_ok (sound : nodes.Sound) {x : Tower} (tall : x.height = level + 1)
    (le : level ≤ top) (held : ∀ l, l ≤ top → linkOf nodes (stopOf path l).node l =
      some (onward l (behind path (row top front) l ++ towers back))) :
    ∃ last, splice nodes path top level front.length x.slot = .ok last ∧
      Relinked nodes last ∧ ∀ slot l, linkOf last slot l =
        if l ≤ top ∧ slot = (stopOf path l).node then some (linkOver path top front x back l)
        else linkOf nodes slot l := by
  have inLow : ∀ l, l ∈ List.range (level + 1) → l ≤ top ∧ l < x.height := by
    intro l member
    rw [List.mem_range] at member
    omega
  have inHigh : ∀ l, l ∈ List.range' (level + 1) (top - level) → l ≤ top ∧ x.height ≤ l := by
    intro l member
    rw [List.mem_range'_1] at member
    omega
  obtain ⟨mid, led, first, firstView⟩ :=
    @relinked_levels K V (lead path front.length x.slot) nodes sound (List.range (level + 1))
      List.nodup_range (fun l => (stopOf path l).node) (linkOver path top front x back)
      (fun l member => ⟨_, held l (inLow l member).1⟩)
      (fun l member now _ => lead_ok stopped now (inLow l member).1 (inLow l member).2 back)
  have heldStill : ∀ l, l ∈ List.range' (level + 1) (top - level) →
      linkOf mid (stopOf path l).node l =
        some (onward l (behind path (row top front) l ++ towers back)) := by
    intro l member
    have low := inHigh l member
    rw [firstView, if_neg (by rw [List.mem_range]; omega)]
    exact held l low.1
  obtain ⟨last, lengthened, second, secondView⟩ :=
    @relinked_levels K V (lengthen path) mid first.sound (List.range' (level + 1) (top - level))
      List.nodup_range' (fun l => (stopOf path l).node) (linkOver path top front x back)
      (fun l member => ⟨_, heldStill l member⟩)
      (fun l member now same => lengthen_ok stopped (inHigh l member).1 (inHigh l member).2
        ((same _).trans (heldStill l member)))
  refine ⟨last, by simp only [splice, led, lengthened, ok_bind], relinked_trans first second, ?_⟩
  intro slot l
  rw [secondView, firstView]
  simp only [List.mem_range'_1, List.mem_range]
  by_cases low : l ≤ top
  · by_cases onLevel : l < level + 1
    · have notAbove : ¬ (level + 1 ≤ l ∧ l < level + 1 + (top - level)) := by omega
      simp only [notAbove, onLevel, low, false_and, true_and, if_false]
    · have above : level + 1 ≤ l ∧ l < level + 1 + (top - level) := by omega
      simp only [above, onLevel, low, false_and, true_and, and_self, if_false]
  · have notAbove : ¬ (level + 1 ≤ l ∧ l < level + 1 + (top - level)) := by omega
    have notOn : ¬ l < level + 1 := by omega
    simp only [notAbove, notOn, low, false_and, if_false]

end Splicing

section Storing

variable {nodes : Arena (Node K V)} {top level maxLevels : Nat} {front back : List (Item K V)}
  {path : Array Stop}

theorem next_in_line (woven : Woven nodes top maxLevels (front ++ back)) :
    ∃ old, previousOf nodes (onward 0 (towers back)).next = some old := by
  obtain ⟨ahead, next⟩ := line_next fun item member =>
    woven.used item (List.mem_append_right front member)
  have member : (onward 0 (towers back)).next ∈ line (front ++ back) := by
    rw [line_append, next]
    simp
  have held : heightOf nodes (onward 0 (towers back)).next ≠ none := by
    intro vacant
    exact (woven.occupied _).mp vacant (mem_line.mp member)
  cases here : nodes.get? (onward 0 (towers back)).next with
  | none => exact absurd (by simp [heightOf, here]) held
  | some node => exact ⟨node.previous, by simp [previousOf, here]⟩

theorem weave_ok (woven : Woven nodes top maxLevels (front ++ back))
    (below : ∀ item ∈ front ++ back, item.tower.height ≤ top + 1)
    (stopped : Stopped path (row top front) top) (le : level ≤ top)
    (room : nodes.len < Arena.maxSlots) (entry : K × V) {links : List Link}
    (computed : links = (List.range (level + 1)).map fun l => onward l (towers back)) :
    ∃ slot stored spliced last, nodes.insert ⟨some entry, links.toArray, (stopOf path 0).node⟩ =
        .ok (slot, stored) ∧
      splice stored path top level front.length slot = .ok spliced ∧
      linkAt spliced slot 0 = .ok (onward 0 (towers back)) ∧
      setPrevious spliced (onward 0 (towers back)).next slot = .ok last ∧
      Woven last top maxLevels (front ++ ⟨⟨slot, level + 1⟩, entry⟩ :: back) := by
  obtain ⟨slot, stored, inserted, storedSound, vacant, view, storedLen⟩ :=
    Arena.insert_ok woven.sound room ⟨some entry, links.toArray, (stopOf path 0).node⟩
  have replaced := replaced_of_view view
  have fresh : heightOf nodes slot = none := by simp [heightOf, vacant]
  have noStop : ∀ l, l ≤ top → slot ≠ (stopOf path l).node := by
    rintro l low rfl
    have held := stop_link stopped woven low
    simp [linkOf, vacant] at held
  have stopsHeld : ∀ l, l ≤ top → linkOf stored (stopOf path l).node l =
      some (onward l (behind path (row top front) l ++ towers back)) := by
    intro l low
    rw [replaced.link, if_neg (fun same => noStop l low same.symm)]
    exact stop_link stopped woven low
  have newLink : ∀ l, l < level + 1 → linkOf stored slot l = some (onward l (towers back)) := by
    intro l low
    rw [replaced.link, if_pos rfl, computed]
    simp [low]
  obtain ⟨spliced, done, relinked, links⟩ :=
    @splice_ok K V stored top level front back path stopped storedSound ⟨slot, level + 1⟩ rfl le
      stopsHeld
  have lowest : linkOf spliced slot 0 = some (onward 0 (towers back)) := by
    rw [links, if_neg (fun both => noStop 0 both.1 both.2)]
    exact newLink 0 (Nat.succ_pos _)
  obtain ⟨old, before⟩ := next_in_line woven
  have differ : (onward 0 (towers back)).next ≠ slot := by
    intro same
    simp [same, previousOf, vacant] at before
  have beforeStill : previousOf spliced (onward 0 (towers back)).next = some old := by
    rw [relinked.previous, replaced.previous, if_neg differ]
    exact before
  obtain ⟨last, finished, lastSound, lastLen, sameLink, sameEntry, sameHeight, previous⟩ :=
    setPrevious_ok relinked.sound beforeStill slot
  have added : Added nodes last path top front back ⟨⟨slot, level + 1⟩, entry⟩ := by
    constructor
    · exact lastSound
    · rw [lastLen, relinked.len, storedLen]
    · intro other
      rw [sameEntry, relinked.entry, replaced.entry]
      rfl
    · intro other
      rw [sameHeight, relinked.height, replaced.height]
      simp [computed]
    · intro other
      rw [previous, relinked.previous, replaced.previous]
      rfl
    · intro l tall
      rw [sameLink, links, if_neg (fun both => noStop l both.1 both.2)]
      exact newLink l tall
    · intro other l away
      rw [sameLink, links, replaced.link, if_neg away]
      rfl
  refine ⟨slot, stored, spliced, last, inserted, done, linkAt_ok lowest, finished, ?_⟩
  exact woven_added woven below stopped fresh added (Nat.succ_pos _)

end Storing

section Whole

variable {list : SkipList K V γ} {front back : List (Item K V)}

theorem raise_ok {level : Nat} {path : Array Stop} (laid : Laid list (front ++ back))
    (size : path.size = list.level + 1) (stopped : Stopped path (row list.level front) list.level)
    (room : level < list.maxLevels) : ∃ nodes raised events,
      list.raise level path =
        .ok ({ list with nodes, level := max list.level level }, raised, events) ∧
      Woven nodes (max list.level level) list.maxLevels (front ++ back) ∧
      Stopped raised (row (max list.level level) front) (max list.level level) := by
  by_cases low : level ≤ list.level
  · refine ⟨list.nodes, path, [], ?_, ?_, ?_⟩
    · unfold raise
      rw [if_pos low, Nat.max_eq_left low]
      rfl
    · rw [Nat.max_eq_left low]
      exact laid.woven
    · rw [Nat.max_eq_left low]
      exact stopped
  · obtain ⟨nodes, opened, woven⟩ := woven_raise laid.woven laid.below room
    have belowFront : ∀ item ∈ front, item.tower.height ≤ list.level + 1 := by
      intro item member
      exact laid.below item (List.mem_append_left _ member)
    refine ⟨nodes, path ++ Array.replicate (level - list.level) start,
      [.raised list.level level], ?_, woven, stopped_raise size stopped belowFront⟩
    have most := laid.limit
    unfold raise
    rw [if_neg low, if_neg (by omega)]
    simp only [laid.len, opened, ok_bind, List.length_range']
    rw [Nat.max_eq_right (Nat.le_of_not_le low)]
    rfl

variable [Ord K] [DrawSource γ]

/-- What is left of an insertion once the levels are open and the links of the new node known. -/
def finishInsert (list : SkipList K V γ) (path : Array Stop) (level rank : Nat)
    (links : List Link) (entry : K × V) (events : List Event) :
    Except Fault (Outcome (SkipList K V γ) Event Bool) := do
  let before ← stopAt path 0
  let (slot, nodes) ← list.nodes.insert ⟨some entry, links.toArray, before.node⟩
  let nodes ← splice nodes path list.level level rank slot
  let after ← linkAt nodes slot 0
  let nodes ← setPrevious nodes after.next slot
  return ⟨true, { list with nodes, len := list.len + 1 }, events⟩

theorem insert_prepared (laid : Laid list (front ++ back)) {key : K} (value : V)
    {stops : Array Stop} (way : Way list (fun k => (compare k key).isLE) front stops) :
    ∃ level draws nodes path events, level < list.maxLevels ∧
      Woven nodes (max list.level level) list.maxLevels (front ++ back) ∧
      Stopped path (row (max list.level level) front) (max list.level level) ∧
      list.insert key value =
        finishInsert { list with draws, nodes, level := max list.level level } path level
          front.length ((List.range (level + 1)).map fun l => onward l (towers back))
          (key, value) events := by
  have descended := path_ok laid way
  obtain ⟨level, draws, drawn⟩ :
      ∃ level draws, drawLevel list.threshold (list.maxLevels - 1) list.draws = (level, draws) :=
    ⟨_, _, rfl⟩
  have room : level < list.maxLevels := by
    have few := drawLevel_le list.threshold (list.maxLevels - 1) list.draws
    have some := laid.room
    rw [drawn] at few
    dsimp only at few
    omega
  have drawnLaid : Laid { list with draws } (front ++ back) :=
    ⟨laid.woven, laid.len, laid.below, laid.top, laid.room, laid.limit⟩
  obtain ⟨nodes, raised, events, opened, woven, onTop⟩ :=
    raise_ok drawnLaid way.size way.stopped room
  have atZero := stopAt_ok onTop (Nat.zero_le _)
  have lowest := lowest_stop
    (fun item member => woven.used item (List.mem_append_left back member)) onTop
  have rank : (stopOf raised 0).rank = front.length := by rw [lowest]
  have links : (List.range (level + 1)).mapM (linkBehind nodes raised front.length) =
      .ok ((List.range (level + 1)).map fun l => onward l (towers back)) := by
    apply mapM_ok
    intro l member
    rw [List.mem_range] at member
    exact linkBehind_ok onTop woven (by dsimp only; omega)
  refine ⟨level, draws, nodes, raised, events, room, woven, onTop, ?_⟩
  simp only [insert, descended, drawn, opened, atZero, rank, links, finishInsert, ok_bind]

theorem insert_ok (laid : Laid list (front ++ back)) {key : K} (value : V)
    {stops : Array Stop} (way : Way list (fun k => (compare k key).isLE) front stops)
    (room : list.nodes.len < Arena.maxSlots) :
    ∃ outcome x, list.insert key value = .ok outcome ∧ outcome.answer = true ∧
      x.entry = (key, value) ∧ Laid outcome.state (front ++ x :: back) := by
  obtain ⟨level, draws, nodes, path, events, levels, woven, stopped, prepared⟩ :=
    insert_prepared laid value way
  have roomStill : nodes.len < Arena.maxSlots := by
    rw [woven.size, ← laid.woven.size]
    exact room
  have below : ∀ item ∈ front ++ back, item.tower.height ≤ max list.level level + 1 := by
    intro item member
    have := laid.below item member
    omega
  obtain ⟨slot, stored, spliced, last, inserted, done, after, finished, final⟩ :=
    weave_ok woven below stopped (Nat.le_max_right _ _) roomStill (key, value) rfl
  have atZero := stopAt_ok stopped (Nat.zero_le _)
  have perm : (front ++ ⟨⟨slot, level + 1⟩, (key, value)⟩ :: back).Perm
      (⟨⟨slot, level + 1⟩, (key, value)⟩ :: (front ++ back)) := List.perm_middle
  refine ⟨⟨true, { list with
      draws, nodes := last, level := max list.level level, len := list.len + 1 }, events⟩,
    ⟨⟨slot, level + 1⟩, (key, value)⟩, ?_, rfl, rfl, ?_⟩
  · rw [prepared]
    simp only [finishInsert, atZero, inserted, done, after, finished, ok_bind, pure_eq_ok]
  · constructor
    · exact final
    · change list.len + 1 = _
      rw [laid.len, perm.length_eq, List.length_cons]
    · intro item member
      rcases List.mem_cons.mp (perm.mem_iff.mp member) with rfl | other
      · change level + 1 ≤ max list.level level + 1
        omega
      · exact below item other
    · change max list.level level = 0 ∨ ∃ item ∈ _, Tower.height (Item.tower item) =
        max list.level level + 1
      rcases Nat.le_total list.level level with raised | kept
      · right
        refine ⟨_, perm.mem_iff.mpr List.mem_cons_self, ?_⟩
        rw [Nat.max_eq_right raised]
      · rw [Nat.max_eq_left kept]
        rcases laid.top with lowest | ⟨item, member, tallest⟩
        · exact Or.inl lowest
        · exact Or.inr ⟨item, perm.mem_iff.mpr (List.mem_cons_of_mem _ member), tallest⟩
    · have := laid.room
      change max list.level level < list.maxLevels
      omega
    · exact laid.limit

theorem insert_full (laid : Laid list (front ++ back)) {key : K} (value : V)
    {stops : Array Stop} (way : Way list (fun k => (compare k key).isLE) front stops)
    (full : list.nodes.len = Arena.maxSlots) : list.insert key value = .error .exhausted := by
  obtain ⟨level, draws, nodes, path, events, -, woven, stopped, prepared⟩ :=
    insert_prepared laid value way
  have fullStill : nodes.len = Arena.maxSlots := by
    rw [woven.size, ← laid.woven.size]
    exact full
  have atZero := stopAt_ok stopped (Nat.zero_le _)
  rw [prepared]
  simp only [finishInsert, atZero, Arena.insert_exhausted woven.sound fullStill, ok_bind,
    error_bind]

end Whole

end MemIndex.SkipList
