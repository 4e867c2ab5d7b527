import Mathlib.Algebra.Ring.Nat
import MemIndex.Proofs.SkipList.Survivors

/- What holds of the nodes of every list, in terms of the nodes alone: which chain each level is,
   what its spans count, and where the ways back lead. -/
namespace MemIndex.SkipList

variable {K V γ : Type}

/-- The links of a level from a node on, the last one leading to the tail. -/
inductive Trail (nodes : Arena (Node K V)) (level : Nat) : Nat → List Link → Prop where
  | last {slot : Nat} {link : Link} (here : linkAt nodes slot level = .ok link)
    (ended : link.next = tail) : Trail nodes level slot [link]
  | more {slot : Nat} {link : Link} {links : List Link} (here : linkAt nodes slot level = .ok link)
    (ahead : link.next ≠ tail) (rest : Trail nodes level link.next links) :
    Trail nodes level slot (link :: links)

def tallNodes (nodes : Arena (Node K V)) (order : List Nat) (level : Nat) : List Nat :=
  order.filter fun slot => (heightOf nodes slot).any fun height => level < height

/-- The number of entries up to a node. The head has none before it, and the tail all of them. -/
def rankIn (order : List Nat) (slot : Nat) : Nat :=
  if slot = tail then order.length else (head :: order).idxOf slot

/-- The links of a level lead from the head over all nodes that are tall enough to the tail, and
their spans are the differences of ranks. -/
structure RegularLevel [Ord K] (list : SkipList K V γ) (order : List Nat) (level : Nat) : Prop where
  trail : ∃ links, Trail list.nodes level head links ∧
    links.map Link.next = tallNodes list.nodes order level ++ [tail] ∧
    (links.map Link.span).sum = list.len
  spans : ∀ slot ∈ head :: tallNodes list.nodes order level, ∃ link,
    linkAt list.nodes slot level = .ok link ∧
      rankIn order link.next = rankIn order slot + link.span
  keys : ∃ keys, (tallNodes list.nodes order level).mapM (keyAt list.nodes) = .ok keys ∧
    keys.Pairwise fun a b => (compare a b).isLE = true

structure Regular [Ord K] (list : SkipList K V γ) (order : List Nat) : Prop where
  levels : ∀ level, level ≤ list.level → RegularLevel list order level
  lowest : tallNodes list.nodes order 0 = order
  back : (order ++ [tail]).map (previousOf list.nodes) = (head :: order).map some
  len : order.length = list.len
  size : list.nodes.len = list.len + 2
  distinct : (head :: tail :: order).Nodup
  stored : ∀ slot, (list.nodes.get? slot).isSome = true ↔ slot ∈ head :: tail :: order

section Trails

variable {nodes : Arena (Node K V)} {towers : List Tower}

theorem filter_short {level : Nat} {front : List Tower} (short : Short level front) :
    (front.filter fun x => level < x.height) = [] := by
  rw [List.filter_eq_nil_iff]
  intro x member
  simpa using short x member

theorem trail_of_linked (linked : Linked nodes towers) (ended : Ended towers) {level : Nat}
    {pre post : List Tower} {t : Tower} (parts : towers = pre ++ t :: post)
    (tall : level < t.height) : ∃ links, Trail nodes level t.slot links ∧
      links.map Link.next =
        (post.filter fun x => level < x.height).map Tower.slot ++ [tail] ∧
      (links.map Link.span).sum = post.length := by
  induction size : post.length using Nat.strongRecOn generalizing pre t post with
  | ind n ih =>
    have here := linkAt_ok (linked pre t post parts level tall)
    rcases first_tall level post with short | ⟨before, x, after, rfl, high, short⟩
    · rw [onward_of_short short] at here
      refine ⟨_, Trail.last here rfl, ?_, ?_⟩
      · rw [filter_short short]
        rfl
      · simpa using size
    · have fewer : after.length < n := by
        rw [← size, List.length_append, List.length_cons]
        omega
      have further : towers = (pre ++ t :: before) ++ x :: after := by
        rw [parts]
        simp
      have notTail : x.slot ≠ tail := ended x (by simp [further])
      obtain ⟨links, rest, next, sum⟩ := ih after.length fewer further high rfl
      rw [onward_short short, onward_tall high] at here
      refine ⟨_, Trail.more here notTail rest, ?_, ?_⟩
      · rw [List.map_cons, next, List.filter_append, filter_short short, List.nil_append,
          List.filter_cons_of_pos (by simpa using high)]
        rfl
      · rw [List.map_cons, List.sum_cons, sum]
        rw [List.length_append, List.length_cons] at size
        dsimp only
        omega

end Trails

section Back

theorem map_of_chain {f : Nat → Option Nat} {first last : Nat} {middle : List Nat}
    (chain : List.IsChain (fun a b => f b = some a) (first :: middle ++ [last])) :
    (middle ++ [last]).map f = (first :: middle).map some := by
  induction middle generalizing first with
  | nil => simpa using chain
  | cons x rest ih =>
    rw [List.cons_append, List.cons_append, List.isChain_cons_cons] at chain
    rw [List.cons_append, List.map_cons, List.map_cons, chain.1, ih chain.2]

end Back

section Ranks

variable {order : List Nat} {towers pre post : List Tower} {t : Tower}
  (names : towers.map Tower.slot = head :: order) (distinct : (head :: tail :: order).Nodup)
  (parts : towers = pre ++ t :: post)

include names distinct parts

theorem rankIn_tower : rankIn order t.slot = pre.length := by
  have notTail : t.slot ≠ tail := ended_of_names names distinct t (by simp [parts])
  have once : (head :: order).Nodup := distinct.sublist ((List.sublist_cons_self tail order).cons_cons _)
  rw [parts, List.map_append, List.map_cons] at names
  rw [← names, List.nodup_append] at once
  have first : t.slot ∉ pre.map Tower.slot := by
    intro member
    exact once.2.2 t.slot member t.slot (by simp) rfl
  rw [rankIn, if_neg notTail, ← names, List.idxOf_append_of_notMem first, List.idxOf_cons_self,
    List.length_map, Nat.add_zero]

theorem rankIn_next (l : Nat) :
    rankIn order (onward l post).next = pre.length + (onward l post).span := by
  rcases first_tall l post with short | ⟨before, x, after, rfl, tall, short⟩
  · rw [onward_of_short short, rankIn, if_pos rfl]
    have total := congrArg List.length names
    rw [parts, List.length_map, List.length_append, List.length_cons, List.length_cons] at total
    dsimp only
    omega
  · have further : towers = (pre ++ t :: before) ++ x :: after := by
      rw [parts]
      simp
    rw [onward_short short, onward_tall tall, rankIn_tower names distinct further]
    rw [List.length_append, List.length_cons]
    dsimp only
    omega

end Ranks

section Whole

variable {nodes : Arena (Node K V)} {level maxLevels : Nat} {items : List (Item K V)}

def tallItems (items : List (Item K V)) (level : Nat) : List (Item K V) :=
  items.filter fun item => level < item.tower.height

theorem tallNodes_slots (woven : Woven nodes level maxLevels items) (l : Nat) :
    tallNodes nodes (slots items) l = slots (tallItems items l) := by
  unfold tallNodes slots tallItems
  rw [List.filter_map]
  congr 1
  apply List.filter_congr
  intro item member
  simp [woven.heights item member]

theorem slots_tallItems (items : List (Item K V)) (l : Nat) : slots (tallItems items l) =
    ((towers items).filter fun x => l < x.height).map Tower.slot := by
  unfold towers
  rw [List.filter_map, List.map_map]
  rfl

theorem tower_of_slot {slot l : Nat} (low : l ≤ level)
    (member : slot ∈ head :: slots (tallItems items l)) :
    ∃ t ∈ row level items, t.slot = slot ∧ l < t.height := by
  rcases List.mem_cons.mp member with rfl | inItems
  · exact ⟨⟨head, level + 1⟩, List.mem_cons_self, rfl, Nat.lt_succ_of_le low⟩
  · obtain ⟨item, kept, rfl⟩ := List.mem_map.mp inItems
    obtain ⟨inside, tall⟩ := List.mem_filter.mp kept
    have inRow : item.tower ∈ towers items := List.mem_map_of_mem inside
    exact ⟨item.tower, List.mem_cons_of_mem _ inRow, rfl, by simpa using tall⟩

theorem keys_ok (entries : ∀ item ∈ items, entryOf nodes item.tower.slot = some (some item.entry)) :
    (slots items).mapM (keyAt nodes) = .ok (items.map (·.entry.1)) := by
  induction items with
  | nil => rfl
  | cons item rest ih =>
    rw [slots_cons, List.mapM_cons, keyAt_ok (entries item List.mem_cons_self), ok_bind,
      ih fun other member => entries other (List.mem_cons_of_mem _ member)]
    rfl

end Whole

section Lists

variable [Ord K] {list : SkipList K V γ} {items : List (Item K V)}

theorem laid_level (laid : Laid list items)
    (ascending : (items.map Item.entry).Pairwise fun a b => notAfter a b = true) {level : Nat}
    (low : level ≤ list.level) : RegularLevel list (slots items) level := by
  have woven := laid.woven
  constructor
  · obtain ⟨links, trail, next, sum⟩ := trail_of_linked woven.linked (row_ended woven)
      (show row list.level items = [] ++ _ from rfl) (Nat.lt_succ_of_le low)
    refine ⟨links, trail, ?_, ?_⟩
    · rw [next, tallNodes_slots woven, slots_tallItems]
    · rw [sum, laid.len, towers, List.length_map]
  · intro slot member
    rw [tallNodes_slots woven] at member
    obtain ⟨t, inRow, rfl, tall⟩ := tower_of_slot low member
    obtain ⟨pre, post, parts⟩ := List.append_of_mem inRow
    refine ⟨onward level post, linkAt_ok (woven.linked pre t post parts level tall), ?_⟩
    rw [rankIn_tower (map_slot_row _ _) woven.distinct parts]
    exact rankIn_next (map_slot_row _ _) woven.distinct parts level
  · have sub : (tallItems items level).Sublist items := List.filter_sublist
    refine ⟨(tallItems items level).map (·.entry.1), ?_, ?_⟩
    · rw [tallNodes_slots woven]
      exact keys_ok fun item member => woven.entries item (sub.subset member)
    · rw [List.pairwise_map] at ascending ⊢
      exact ascending.sublist sub

theorem laid_regular (laid : Laid list items)
    (ascending : (items.map Item.entry).Pairwise fun a b => notAfter a b = true) :
    Regular list (slots items) := by
  have woven := laid.woven
  constructor
  · intro level low
    exact laid_level laid ascending low
  · rw [tallNodes_slots woven, tallItems, List.filter_eq_self.mpr]
    intro item member
    simpa using woven.used item member
  · exact map_of_chain woven.backed
  · rw [laid.len, slots, List.length_map]
  · rw [laid.len]
    exact woven.size
  · exact woven.distinct
  · intro slot
    have occupied := woven.occupied slot
    unfold heightOf at occupied
    rw [Option.map_eq_none_iff] at occupied
    rw [Option.isSome_iff_ne_none, ne_eq, occupied, not_not]

theorem reachable_regular [DrawSource γ] [Std.TransOrd K] (reachable : Reachable list) :
    ∃ order, Regular list order := by
  obtain ⟨survivors, items, laid, inOrder⟩ := reachable_mirrors reachable
  exact ⟨slots items, laid_regular laid inOrder.ascending⟩

theorem reachable_regular_words : ∃ list : SkipList Nat Nat Xoshiro,
    Reachable list ∧ list.len = 4 ∧ list.level = 2 ∧ ∃ order, Regular list order := by
  obtain ⟨list, reachable, len, level⟩ := uneven_reachable
  exact ⟨list, reachable, len, level, reachable_regular reachable⟩

end Lists

end MemIndex.SkipList
