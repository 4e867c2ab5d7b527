import Mathlib.Data.List.Nodup
import Mathlib.Tactic.Tauto
import MemIndex.Proofs.SkipList.Descending

/- How a skip list lies in its store: the row of its items, which take up all of the store but for
   the head and the tail. -/
namespace MemIndex.SkipList

variable {K V γ : Type}

structure Item (K V : Type) where
  tower : Tower
  entry : K × V

def towers (items : List (Item K V)) : List Tower := items.map Item.tower

def slots (items : List (Item K V)) : List Nat := items.map (·.tower.slot)

/-- The head takes part in all levels in use. -/
def row (level : Nat) (items : List (Item K V)) : List Tower := ⟨head, level + 1⟩ :: towers items

/-- What the store holds, apart from the counters and the choice of the top level. -/
structure Woven (nodes : Arena (Node K V)) (level maxLevels : Nat) (items : List (Item K V)) :
    Prop where
  sound : nodes.Sound
  size : nodes.len = items.length + 2
  occupied : ∀ slot, heightOf nodes slot = none ↔ slot ∉ head :: tail :: slots items
  distinct : (head :: tail :: slots items).Nodup
  linked : Linked nodes (row level items)
  backed : Backed nodes (slots items)
  headHeight : heightOf nodes head = some maxLevels
  ends : entryOf nodes head = some none ∧ entryOf nodes tail = some none
  entries : ∀ item ∈ items, entryOf nodes item.tower.slot = some (some item.entry)
  heights : ∀ item ∈ items, heightOf nodes item.tower.slot = some item.tower.height
  used : ∀ item ∈ items, 0 < item.tower.height

structure Laid (list : SkipList K V γ) (items : List (Item K V)) : Prop where
  woven : Woven list.nodes list.level list.maxLevels items
  len : list.len = items.length
  below : ∀ item ∈ items, item.tower.height ≤ list.level + 1
  top : list.level = 0 ∨ ∃ item ∈ items, item.tower.height = list.level + 1
  room : list.level < list.maxLevels
  limit : list.maxLevels ≤ levelLimit

section Parts

theorem towers_append (front back : List (Item K V)) :
    towers (front ++ back) = towers front ++ towers back := List.map_append

theorem slots_append (front back : List (Item K V)) :
    slots (front ++ back) = slots front ++ slots back := List.map_append

theorem towers_cons (item : Item K V) (items : List (Item K V)) :
    towers (item :: items) = item.tower :: towers items := rfl

theorem slots_cons (item : Item K V) (items : List (Item K V)) :
    slots (item :: items) = item.tower.slot :: slots items := rfl

theorem row_append (level : Nat) (front back : List (Item K V)) :
    row level (front ++ back) = row level front ++ towers back := by
  unfold row
  rw [towers_append]
  rfl

@[simp] theorem length_row (level : Nat) (items : List (Item K V)) :
    (row level items).length = items.length + 1 := by
  simp [row, towers]

theorem map_slot_towers (items : List (Item K V)) :
    (towers items).map Tower.slot = slots items := by
  simp [towers, slots]

theorem map_slot_row (level : Nat) (items : List (Item K V)) :
    (row level items).map Tower.slot = head :: slots items := by
  unfold row
  rw [List.map_cons, map_slot_towers]

theorem linked_row {nodes : Arena (Node K V)} {level : Nat} {items : List (Item K V)} :
    Linked nodes (row level items) ↔
      (∀ l, l ≤ level → linkOf nodes head l = some (onward l (towers items))) ∧
        Linked nodes (towers items) := by
  constructor
  · intro linked
    constructor
    · intro l low
      exact linked [] ⟨head, level + 1⟩ (towers items) rfl l (Nat.lt_succ_of_le low)
    · rintro pre t post parts
      exact linked (⟨head, level + 1⟩ :: pre) t post (by rw [row, parts]; rfl)
  · rintro ⟨atHead, atItems⟩ pre t post parts l tall
    cases pre with
    | nil =>
      obtain ⟨rfl, rfl⟩ := List.cons.inj parts
      exact atHead l (Nat.le_of_lt_succ tall)
    | cons first pre => exact atItems pre t post (List.cons.inj parts).2 l tall

theorem slot_in_store {item : Item K V} {items : List (Item K V)} (member : item ∈ items) :
    item.tower.slot ∈ head :: tail :: slots items :=
  List.mem_cons_of_mem _ (List.mem_cons_of_mem _ (List.mem_map_of_mem member))

theorem item_of_tower {items : List (Item K V)} {t : Tower} (member : t ∈ towers items) :
    ∃ item ∈ items, item.tower = t := List.mem_map.mp member

variable {nodes : Arena (Node K V)} {level maxLevels : Nat} {items : List (Item K V)}

theorem slots_ne (woven : Woven nodes level maxLevels items) {slot : Nat}
    (member : slot ∈ slots items) : slot ≠ head ∧ slot ≠ tail := by
  have distinct := woven.distinct
  simp only [List.nodup_cons, List.mem_cons, not_or] at distinct
  constructor
  · rintro rfl
    exact distinct.1.2 member
  · rintro rfl
    exact distinct.2.1 member

theorem row_distinct (woven : Woven nodes level maxLevels items) :
    ((row level items).map Tower.slot).Nodup := by
  have distinct := woven.distinct
  simp only [List.nodup_cons, List.mem_cons, not_or] at distinct
  rw [map_slot_row]
  exact List.nodup_cons.mpr ⟨distinct.1.2, distinct.2.2⟩

def line (items : List (Item K V)) : List Nat := head :: slots items ++ [tail]

theorem line_distinct (woven : Woven nodes level maxLevels items) : (line items).Nodup := by
  have distinct := woven.distinct
  simp only [List.nodup_cons, List.mem_cons, not_or] at distinct
  unfold line
  rw [List.cons_append]
  refine List.nodup_cons.mpr ⟨?_, ?_⟩
  · intro member
    rcases List.mem_append.mp member with inItems | atTail
    · exact distinct.1.2 inItems
    · exact distinct.1.1 (List.mem_singleton.mp atTail)
  · rw [List.nodup_append]
    refine ⟨distinct.2.2, List.nodup_singleton _, ?_⟩
    intro a inItems b atTail same
    rw [List.mem_singleton.mp atTail] at same
    exact distinct.2.1 (same ▸ inItems)

theorem line_append (front back : List (Item K V)) :
    line (front ++ back) = (head :: slots front) ++ (slots back ++ [tail]) := by
  simp [line, slots_append]

theorem mem_line {slot : Nat} : slot ∈ line items ↔ slot ∈ head :: tail :: slots items := by
  simp only [line, List.cons_append, List.mem_cons, List.mem_append, List.not_mem_nil, or_false]
  tauto

theorem row_ended (woven : Woven nodes level maxLevels items) : Ended (row level items) :=
  ended_of_names (map_slot_row level items) woven.distinct

theorem length_le_size (woven : Woven nodes level maxLevels items) :
    items.length + 2 ≤ nodes.slots.size := by
  rw [← woven.size]
  exact Arena.len_le_size woven.sound

theorem line_next (used : ∀ item ∈ items, 0 < item.tower.height) :
    ∃ rest, slots items ++ [tail] = (onward 0 (towers items)).next :: rest := by
  cases items with
  | nil => exact ⟨[], rfl⟩
  | cons item rest =>
    have tall := used item List.mem_cons_self
    rw [towers_cons, onward_tall tall]
    exact ⟨slots rest ++ [tail], rfl⟩

theorem row_used (used : ∀ item ∈ items, 0 < item.tower.height) :
    ∀ t ∈ row level items, 0 < t.height := by
  intro t member
  rcases List.mem_cons.mp member with rfl | inItems
  · exact Nat.succ_pos _
  · obtain ⟨item, inside, rfl⟩ := item_of_tower inItems
    exact used item inside

def lastSlot (items : List (Item K V)) : Nat :=
  (head :: slots items).getLast (List.cons_ne_nil _ _)

theorem lastSlot_append (front : List (Item K V)) (x : Item K V) :
    lastSlot (front ++ [x]) = x.tower.slot := by
  simp [lastSlot, slots]

theorem line_lastSlot (items : List (Item K V)) :
    ∃ past, head :: slots items = past ++ [lastSlot items] :=
  ⟨_, (List.dropLast_append_getLast (List.cons_ne_nil _ _)).symm⟩

theorem lowest_stop (used : ∀ item ∈ items, 0 < item.tower.height) {path : Array Stop} {top : Nat}
    (stopped : Stopped path (row level items) top) :
    stopOf path 0 = ⟨lastSlot items, items.length⟩ := by
  obtain ⟨stop, found, stops⟩ := stopped 0 (Nat.zero_le _)
  obtain ⟨pre, t, parts, rfl⟩ := stop_at_end (row_used used) stops
  have rank : items.length = pre.length := by
    have total := congrArg List.length parts
    rw [length_row, List.length_append, List.length_singleton] at total
    exact Nat.succ.inj total
  have node := map_slot_row level items
  rw [parts, List.map_append, List.map_cons, List.map_nil] at node
  have last : lastSlot items = t.slot := by simp [lastSlot, ← node]
  rw [last, rank]
  simp [stopOf, found]

theorem lowest_link_head (woven : Woven nodes level maxLevels items) :
    linkOf nodes head 0 = some (onward 0 (towers items)) :=
  (linked_row.mp woven.linked).1 0 (Nat.zero_le _)

theorem lowest_link_item {front back : List (Item K V)} {x : Item K V}
    (woven : Woven nodes level maxLevels (front ++ x :: back)) :
    linkOf nodes x.tower.slot 0 = some (onward 0 (towers back)) := by
  apply woven.linked (row level front) x.tower (towers back)
  · rw [row_append, towers_cons]
  · exact woven.used x (by simp)

theorem lowest_link {front back : List (Item K V)}
    (woven : Woven nodes level maxLevels (front ++ back)) :
    linkOf nodes (lastSlot front) 0 = some (onward 0 (towers back)) := by
  rcases List.eq_nil_or_concat' front with rfl | ⟨init, x, rfl⟩
  · exact lowest_link_head woven
  · rw [lastSlot_append]
    apply @lowest_link_item K V nodes level maxLevels init back x
    simpa using woven

theorem woven_relinked {changed : Arena (Node K V)} {top : Nat}
    (woven : Woven nodes level maxLevels items) (relinked : Relinked nodes changed)
    (linked : Linked changed (row top items)) : Woven changed top maxLevels items := by
  have backed : Backed changed (slots items) := by
    have chain := woven.backed
    unfold Backed at chain ⊢
    simpa only [relinked.previous] using chain
  constructor
  · exact relinked.sound
  · exact relinked.len.trans woven.size
  · intro slot
    rw [relinked.height]
    exact woven.occupied slot
  · exact woven.distinct
  · exact linked
  · exact backed
  · exact (relinked.height head).trans woven.headHeight
  · rw [relinked.entry, relinked.entry]
    exact woven.ends
  · intro item member
    rw [relinked.entry]
    exact woven.entries item member
  · intro item member
    rw [relinked.height]
    exact woven.heights item member
  · exact woven.used

end Parts

section Ways

variable {list : SkipList K V γ} {items front back : List (Item K V)} {holds : K → Bool}

structure Parted (holds : K → Bool) (front back : List (Item K V)) : Prop where
  last : ∀ init x, front = init ++ [x] → holds x.entry.1 = true
  first : ∀ x rest, back = x :: rest → holds x.entry.1 = false

structure Way (list : SkipList K V γ) (holds : K → Bool) (front : List (Item K V))
    (path : Array Stop) : Prop where
  walked : list.stops holds = .ok path
  size : path.size = list.level + 1
  stopped : Stopped path (row list.level front) list.level

theorem asked_item (laid : Laid list items) {item : Item K V} (member : item ∈ items) :
    (do return holds (← keyAt list.nodes item.tower.slot)) =
      (.ok (holds item.entry.1) : Except Fault Bool) := by
  rw [keyAt_ok (laid.woven.entries item member)]
  rfl

theorem asked_row (laid : Laid list items) (holds : K → Bool) :
    Asked (fun stop => return holds (← keyAt list.nodes stop.node)) (row list.level items) := by
  intro pre t post parts inner
  cases pre with
  | nil => exact absurd rfl inner
  | cons first pre =>
    have member : t ∈ towers items := by
      rw [(List.cons.inj parts).2]
      simp
    obtain ⟨item, inside, rfl⟩ := item_of_tower member
    exact ⟨_, asked_item laid inside⟩

theorem way_somewhere (laid : Laid list items) (holds : K → Bool) :
    ∃ front back path, items = front ++ back ∧ Way list holds front path ∧
      Parted holds front back := by
  have woven := laid.woven
  have fits : (row list.level items).length ≤ list.nodes.slots.size := by
    have := length_le_size woven
    rw [length_row]
    omega
  obtain ⟨before, x, after, path, whole, walked, size, stopped, went, halts⟩ :=
    descend_ends woven.linked (asked_row laid holds) (row_ended woven) rfl (Nat.lt_succ_self _)
      (row_used woven.used) fits
  obtain ⟨front, back, rfl, itsRow, rfl⟩ := split_row whole
  change before ++ [x] = row list.level front at itsRow
  rw [itsRow] at stopped
  refine ⟨front, back, path, rfl, ⟨walked, size, stopped⟩, ?_, ?_⟩
  · rintro init item rfl
    rw [row_append, towers_cons] at itsRow
    obtain ⟨rfl, same⟩ := List.append_inj' itsRow rfl
    obtain rfl := List.cons.inj same |>.1
    rcases went with none | held
    · cases none
    · rw [asked_item laid (by simp)] at held
      exact Except.ok.inj held
  · rintro item rest rfl
    have halted := halts item.tower (towers rest) rfl
    rw [asked_item laid (by simp)] at halted
    exact Except.ok.inj halted

theorem parted_unique {others more : List (Item K V)} (parted : Parted holds others more)
    (whole : front ++ back = others ++ more) (yes : ∀ item ∈ front, holds item.entry.1 = true)
    (no : ∀ item ∈ back, holds item.entry.1 = false) : others = front := by
  rcases List.append_eq_append_iff.mp whole with ⟨mid, rfl, rfl⟩ | ⟨mid, rfl, rfl⟩
  · rcases List.eq_nil_or_concat' mid with rfl | ⟨init, item, rfl⟩
    · simp
    · have held := parted.last (front ++ init) item (by simp)
      rw [no item (by simp)] at held
      cases held
  · cases mid with
    | nil => simp
    | cons item rest =>
      have missed := parted.first item (rest ++ back) rfl
      rw [yes item (by simp)] at missed
      cases missed

/-- A condition that holds up to a place in the row and not behind it leads to this place. -/
theorem way_ok (laid : Laid list (front ++ back)) (holds : K → Bool)
    (yes : ∀ item ∈ front, holds item.entry.1 = true)
    (no : ∀ item ∈ back, holds item.entry.1 = false) : ∃ path, Way list holds front path := by
  obtain ⟨others, more, path, whole, way, parted⟩ := way_somewhere laid holds
  rw [parted_unique parted whole yes no] at way
  exact ⟨path, way⟩

theorem way_between (laid : Laid list items) (holds : K → Bool) {first second : List (K × V)}
    (whole : items.map Item.entry = first ++ second)
    (yes : ∀ pair ∈ first, holds pair.1 = true) (no : ∀ pair ∈ second, holds pair.1 = false) :
    ∃ front back path, items = front ++ back ∧ first = front.map Item.entry ∧
      second = back.map Item.entry ∧ Way list holds front path := by
  obtain ⟨front, back, rfl, rfl, rfl⟩ := List.map_eq_append_iff.mp whole
  obtain ⟨path, way⟩ := way_ok laid holds
    (fun item member => yes _ (List.mem_map_of_mem member))
    (fun item member => no _ (List.mem_map_of_mem member))
  exact ⟨front, back, path, rfl, rfl, rfl, way⟩

theorem path_ok (laid : Laid list items) {path : Array Stop} (way : Way list holds front path) :
    list.path holds = .ok path := by
  have few := laid.room
  have most := laid.limit
  rw [SkipList.path, if_pos (by omega), way.walked]

end Ways

end MemIndex.SkipList
