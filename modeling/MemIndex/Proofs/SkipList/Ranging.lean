import MemIndex.Proofs.SkipList.Seeking
import MemIndex.Proofs.SkipList.Survivors

/- Bounds and ranges. They are found by ways down from the head, and for ranges the length is a
   difference of ranks; both are what a walk over all entries finds. The look at the ends of the row
   that comes first saves a way down and never changes an answer. -/
namespace MemIndex.SkipList

variable {K V γ : Type} [Ord K]

def within (low high : K) (pair : K × V) : Bool :=
  (compare pair.1 low).isGE && (compare pair.1 high).isLE

section Unguarded

variable (list : SkipList K V γ)

/-- The first entry whose key a condition does not hold of, without a look at the last one. -/
def following (holds : K → Bool) : Except Fault (Option (K × V)) := do
  entryAfter list.nodes (← list.seek holds).node

def preceding (holds : K → Bool) : Except Fault (Option (K × V)) := do
  entryAt list.nodes (← list.seek holds).node

/-- A range without a look at the extent of the keys. -/
def between (low high : K) : Except Fault (Run K V) := do
  let before ← list.seek fun k => (compare k low).isLT
  let back ← list.seek fun k => (compare k high).isLE
  let front ← linkAt list.nodes before.node 0
  return ⟨list.nodes, front.next, back.node, back.rank - before.rank⟩

def firstBetween (low high : K) : Except Fault (Option (K × V)) := do
  let found ← list.following fun k => (compare k low).isLT
  return found.filter fun pair => (compare pair.1 high).isLE

def lastBetween (low high : K) : Except Fault (Option (K × V)) := do
  let found ← list.preceding fun k => (compare k high).isLE
  return found.filter fun pair => (compare pair.1 low).isGE

end Unguarded

section Rows

variable {α : Type} {p : α → Bool} {xs ys : List α}

theorem find?_behind (no : ∀ x ∈ xs, p x = false) (yes : ∀ x ∈ ys, p x = true) :
    (xs ++ ys).find? p = ys.head? := by
  rw [List.find?_append, List.find?_eq_none.mpr (by simpa using no), Option.none_or]
  cases ys with
  | nil => rfl
  | cons y rest => rw [List.find?_cons_of_pos (yes y List.mem_cons_self), List.head?_cons]

theorem head_filter_append (yes : ∀ x ∈ xs, p x = true) (no : ∀ x ∈ ys, p x = false) :
    (xs ++ ys).head?.filter p = xs.head? := by
  cases xs with
  | cons x rest => simp [yes x List.mem_cons_self]
  | nil =>
    cases ys with
    | nil => rfl
    | cons y rest => simp [no y List.mem_cons_self]

theorem last_filter_append (no : ∀ x ∈ xs, p x = false) (yes : ∀ x ∈ ys, p x = true) :
    (xs ++ ys).getLast?.filter p = ys.getLast? := by
  have mirrored := @head_filter_append α p ys.reverse xs.reverse
    (by simpa using yes) (by simpa using no)
  rwa [← List.reverse_append, List.head?_reverse, List.head?_reverse] at mirrored

theorem idle_guard {β : Type} {found : Option β} (no : ∀ x ∈ ys, p x = false)
    (ended : ys = [] → found = none) :
    (if (xs ++ ys).getLast?.any p then none else found) = found := by
  rcases List.eq_nil_or_concat' ys with rfl | ⟨init, last, rfl⟩
  · rw [ended rfl, ite_self]
  · rw [← List.append_assoc, List.getLast?_concat, Option.any_some, no last (by simp)]
    rfl

theorem reach_of_middle {front middle back before after : List α}
    (inside : ∀ x ∈ middle, p x = true) (behind : ∀ x ∈ back, p x = false)
    (whole : before ++ after = front ++ middle ++ back) (yes : ∀ x ∈ before, p x = true)
    (no : ∀ x ∈ after, p x = false) : before = front ++ middle ∨ middle = [] ∧ before <+: front := by
  rcases List.append_eq_append_iff.mp whole with ⟨rest, parts, rfl⟩ | ⟨rest, rfl, parts⟩
  · rcases List.eq_nil_or_concat' middle with rfl | ⟨init, last, rfl⟩
    · rw [List.append_nil] at parts
      exact Or.inr ⟨rfl, rest, parts.symm⟩
    · rcases List.eq_nil_or_concat' rest with rfl | ⟨others, final, rfl⟩
      · rw [List.append_nil] at parts
        exact Or.inl parts.symm
      · rw [← List.append_assoc, ← List.append_assoc] at parts
        obtain ⟨-, same⟩ := List.append_inj' parts rfl
        obtain rfl := List.singleton_inj.mp same
        have held := inside last (by simp)
        rw [no last (by simp)] at held
        cases held
  · cases rest with
    | nil => exact Or.inl (List.append_nil _)
    | cons x rest =>
      have missed := behind x (by simp [parts])
      rw [yes x (by simp)] at missed
      cases missed

variable {low high : K} {front middle back row : List (K × V)}

structure Cut (low high : K) (front middle back : List (K × V)) : Prop where
  front : ∀ pair ∈ front, (compare pair.1 low).isLT = true
  middle : ∀ pair ∈ middle, (compare pair.1 low).isLT = false ∧ (compare pair.1 high).isLE = true
  back : ∀ pair ∈ back, (compare pair.1 low).isLT = false ∧ (compare pair.1 high).isLE = false

theorem filter_cut (cut : Cut low high front middle back) :
    (front ++ middle ++ back).filter (within low high) = middle := by
  have before : front.filter (within low high) = [] := by
    rw [List.filter_eq_nil_iff]
    intro pair member
    simp [within, ← Ordering.not_isLT_eq_isGE, cut.front pair member]
  have inside : middle.filter (within low high) = middle := by
    rw [List.filter_eq_self]
    intro pair member
    obtain ⟨notLess, notGreater⟩ := cut.middle pair member
    simp [within, ← Ordering.not_isLT_eq_isGE, notLess, notGreater]
  have behind : back.filter (within low high) = [] := by
    rw [List.filter_eq_nil_iff]
    intro pair member
    simp [within, (cut.back pair member).2]
  rw [List.filter_append, List.filter_append, before, inside, behind, List.nil_append,
    List.append_nil]

variable [Std.TransOrd K]

theorem split_least (ascending : row.Pairwise fun a b => notAfter a b = true) (key : K) :
    ∃ front back, row = front ++ back ∧ (∀ pair ∈ front, (compare pair.1 key).isLT = true) ∧
      ∀ pair ∈ back, (compare pair.1 key).isLT = false := by
  obtain ⟨front, back, whole, less, notLess, -⟩ := split_key ascending key
  exact ⟨front, back, whole, less, notLess⟩

theorem split_greatest (ascending : row.Pairwise fun a b => notAfter a b = true) (key : K) :
    ∃ front back, row = front ++ back ∧ (∀ pair ∈ front, (compare pair.1 key).isLE = true) ∧
      ∀ pair ∈ back, (compare pair.1 key).isLE = false :=
  split_ascending ascending (fun k => (compare k key).isLE) fun _ _ before after =>
    Std.TransCmp.isLE_trans before after

theorem cut_ascending (ascending : row.Pairwise fun a b => notAfter a b = true) (low high : K) :
    ∃ front middle back, row = front ++ middle ++ back ∧ Cut low high front middle back := by
  obtain ⟨front, rest, rfl, less, notLess⟩ := split_least ascending low
  obtain ⟨middle, back, rfl, fits, exceeds⟩ :=
    split_greatest (List.pairwise_append.mp ascending).2.1 high
  refine ⟨front, middle, back, (List.append_assoc _ _ _).symm, less, ?_, ?_⟩
  · intro pair member
    exact ⟨notLess pair (List.mem_append_left _ member), fits pair member⟩
  · intro pair member
    exact ⟨notLess pair (List.mem_append_right _ member), exceeds pair member⟩

end Rows

section Queries

variable {list : SkipList K V γ} {items front middle back before after : List (Item K V)}
  {key low high : K} {path : Array Stop}

structure Ranged (list : SkipList K V γ) (low high : K)
    (front middle back before after : List (Item K V)) : Prop where
  laid : Laid list (front ++ middle ++ back)
  cut : Cut low high (front.map Item.entry) (middle.map Item.entry) (back.map Item.entry)
  whole : before ++ after = front ++ middle ++ back
  start : ∃ path, Way list (fun k => (compare k low).isLT) front path
  stop : ∃ path, Way list (fun k => (compare k high).isLE) before path
  ends : before = front ++ middle ∨ middle = [] ∧ before <+: front

omit [Ord K] in
theorem following_ok (laid : Laid list (front ++ back)) {holds : K → Bool}
    (way : Way list holds front path) : list.following holds = .ok (back.head?.map Item.entry) := by
  rw [following, seek_ok laid way, ok_bind, entry_after laid]

omit [Ord K] in
theorem preceding_ok (laid : Laid list (front ++ back)) {holds : K → Bool}
    (way : Way list holds front path) :
    list.preceding holds = .ok (front.getLast?.map Item.entry) := by
  rw [preceding, seek_ok laid way, ok_bind, entry_before laid]

omit [Ord K] in
theorem unneeded_look (holds : K → Bool) (front : List (Item K V))
    (no : ∀ pair ∈ back.map Item.entry, holds pair.1 = false) :
    (if (front ++ back).getLast?.any (fun x => holds x.entry.1) then none
      else back.head?.map Item.entry) = back.head?.map Item.entry := by
  apply idle_guard
  · intro item member
    exact no _ (List.mem_map_of_mem member)
  · rintro rfl
    rfl

omit [Ord K] in
theorem bound_find (laid : Laid list items) {holds : K → Bool} {sought : K × V → Bool}
    (opposite : ∀ pair, (!holds pair.1) = sought pair) {first second : List (K × V)}
    (whole : items.map Item.entry = first ++ second) (yes : ∀ pair ∈ first, holds pair.1 = true)
    (no : ∀ pair ∈ second, holds pair.1 = false) {bound : Except Fault (Option (K × V))}
    (looked : ∀ {front back : List (Item K V)} {path : Array Stop}, Laid list (front ++ back) →
      Way list holds front path →
        bound = .ok (if (front ++ back).getLast?.any fun x => holds x.entry.1 then none
          else back.head?.map Item.entry)) :
    bound = .ok ((items.map Item.entry).find? sought) ∧ bound = list.following holds := by
  obtain ⟨front, back, path, rfl, rfl, rfl, way⟩ := way_between laid holds whole yes no
  have found := @find?_behind (K × V) sought _ _
    (fun pair member => by rw [← opposite, yes pair member]; rfl)
    (fun pair member => by rw [← opposite, no pair member]; rfl)
  have idle := unneeded_look holds front no
  rw [looked laid way, following_ok laid way, whole, found, List.head?_map]
  exact ⟨congrArg _ idle, congrArg _ idle⟩

theorem between_ok (ranged : Ranged list low high front middle back before after) :
    list.between low high = .ok ⟨list.nodes, (onward 0 (towers (middle ++ back))).next,
      lastSlot before, before.length - front.length⟩ := by
  obtain ⟨path, start⟩ := ranged.start
  obtain ⟨other, stop⟩ := ranged.stop
  have laid := ranged.laid
  have laidBefore : Laid list (before ++ after) := by
    rw [ranged.whole]
    exact laid
  rw [List.append_assoc] at laid
  rw [between, seek_ok laid start, ok_bind, seek_ok laidBefore stop, ok_bind, link_after laid,
    ok_bind, pure_eq_ok]

/-- The length of a range that has not begun is cut off at zero. -/
theorem between_pending (ranged : Ranged list low high front middle back before after) :
    ∃ run, list.between low high = .ok run ∧ run.Pending (middle.map Item.entry) := by
  refine ⟨_, between_ok ranged, ?_⟩
  rcases ranged.ends with rfl | ⟨rfl, prefixed⟩
  · refine .standing ⟨ranged.laid.woven, rfl, rfl, ?_⟩
    simp
  · exact .ended (Nat.sub_eq_zero_of_le prefixed.length_le)

theorem firstBetween_ok (ranged : Ranged list low high front middle back before after) :
    list.firstBetween low high = .ok (middle.map Item.entry).head? := by
  obtain ⟨path, start⟩ := ranged.start
  have laid := ranged.laid
  rw [List.append_assoc] at laid
  rw [firstBetween, following_ok laid start, ok_bind, ← List.head?_map, List.map_append,
    pure_eq_ok, head_filter_append (fun pair member => (ranged.cut.middle pair member).2)
      (fun pair member => (ranged.cut.back pair member).2)]

theorem lastBetween_ok (ranged : Ranged list low high front middle back before after) :
    list.lastBetween low high = .ok (middle.map Item.entry).getLast? := by
  obtain ⟨path, stop⟩ := ranged.stop
  have laid : Laid list (before ++ after) := by
    rw [ranged.whole]
    exact ranged.laid
  have less : ∀ pair ∈ front.map Item.entry, (compare pair.1 low).isGE = false := by
    intro pair member
    rw [← Ordering.not_isLT_eq_isGE, ranged.cut.front pair member]
    rfl
  have inside : ∀ pair ∈ middle.map Item.entry, (compare pair.1 low).isGE = true := by
    intro pair member
    rw [← Ordering.not_isLT_eq_isGE, (ranged.cut.middle pair member).1]
    rfl
  rw [lastBetween, preceding_ok laid stop, ok_bind, ← List.getLast?_map, pure_eq_ok]
  rcases ranged.ends with rfl | ⟨rfl, begun⟩
  · rw [List.map_append, last_filter_append less inside]
  · have early := fun pair member => less pair ((begun.map Item.entry).subset member)
    have none := @last_filter_append (K × V) (fun pair => (compare pair.1 low).isGE)
      (before.map Item.entry) [] early (by simp)
    rw [List.append_nil] at none
    rw [none]
    rfl

variable [Std.TransOrd K]

theorem ranged_ascending (laid : Laid list items)
    (ascending : (items.map Item.entry).Pairwise fun a b => notAfter a b = true) (low high : K) :
    ∃ front middle back before after, items = front ++ middle ++ back ∧
      Ranged list low high front middle back before after := by
  obtain ⟨first, second, third, parts, cut⟩ := cut_ascending ascending low high
  obtain ⟨inner, back, rfl, inInner, rfl⟩ := List.map_eq_append_iff.mp parts
  obtain ⟨front, middle, rfl, rfl, rfl⟩ := List.map_eq_append_iff.mp inInner
  obtain ⟨low', high', others, fits, exceeds⟩ := split_greatest ascending high
  obtain ⟨before, after, whole, rfl, rfl⟩ := List.map_eq_append_iff.mp others
  have yes : ∀ item ∈ before, (compare item.entry.1 high).isLE = true := fun item member =>
    fits _ (List.mem_map_of_mem member)
  have no : ∀ item ∈ after, (compare item.entry.1 high).isLE = false := fun item member =>
    exceeds _ (List.mem_map_of_mem member)
  refine ⟨front, middle, back, before, after, rfl, laid, cut, whole.symm, ?_, ?_, ?_⟩
  · rw [List.append_assoc] at laid
    apply way_ok laid
    · intro item member
      exact cut.front _ (List.mem_map_of_mem member)
    · intro item member
      rcases List.mem_append.mp member with inMiddle | inBack
      · exact (cut.middle _ (List.mem_map_of_mem inMiddle)).1
      · exact (cut.back _ (List.mem_map_of_mem inBack)).1
  · rw [whole] at laid
    exact way_ok laid _ yes no
  · apply reach_of_middle _ _ whole.symm yes no
    · intro item member
      exact (cut.middle _ (List.mem_map_of_mem member)).2
    · intro item member
      exact (cut.back _ (List.mem_map_of_mem member)).2

theorem reaches_of_middle (ascending : (items.map Item.entry).Pairwise fun a b => notAfter a b = true)
    {item : Item K V} (member : item ∈ items) (notLess : (compare item.entry.1 low).isLT = false)
    (notGreater : (compare item.entry.1 high).isLE = true) : reaches low high items = true := by
  have least : (compare low item.entry.1).isLE = true := by
    rw [← Std.OrientedCmp.isGE_eq_isLE, ← Ordering.not_isLT_eq_isGE, notLess]
    rfl
  have crossed : (compare low high).isLE = true := Std.TransCmp.isLE_trans least notGreater
  obtain ⟨first, others, rfl⟩ := List.exists_cons_of_ne_nil (List.ne_nil_of_mem member)
  have early : (compare first.entry.1 item.entry.1).isLE = true :=
    notAfter_first ascending (List.mem_map_of_mem member)
  obtain ⟨init, final, whole⟩ :=
    (List.eq_nil_or_concat' (first :: others)).resolve_left (List.cons_ne_nil _ _)
  have late : (compare item.entry.1 final.entry.1).isLE = true := by
    rw [whole] at member ascending
    rcases List.mem_append.mp member with inInit | same
    · rw [List.map_append, List.pairwise_append] at ascending
      exact ascending.2.2 _ (List.mem_map_of_mem inInit) _ (by simp)
    · rw [List.mem_singleton.mp same]
      exact notAfter_of_hasKey (hasKey_self final.entry) (hasKey_self final.entry)
  unfold reaches
  rw [List.head?_cons, Option.any_some, whole, List.getLast?_concat, Option.any_some,
    ← Ordering.not_isLE_eq_isGT, crossed, Std.OrientedCmp.isGE_eq_isLE,
    Std.TransCmp.isLE_trans early notGreater, Std.TransCmp.isLE_trans least late]
  rfl

theorem middle_unreached (ranged : Ranged list low high front middle back before after)
    (ascending : ((front ++ middle ++ back).map Item.entry).Pairwise fun a b => notAfter a b = true)
    (outside : reaches low high (front ++ middle ++ back) = false) : middle = [] := by
  rw [List.eq_nil_iff_forall_not_mem]
  intro item member
  obtain ⟨notLess, notGreater⟩ := ranged.cut.middle _ (List.mem_map_of_mem member)
  rw [reaches_of_middle ascending (by simp [member]) notLess notGreater] at outside
  cases outside

theorem range_pending (laid : Laid list items)
    (ascending : (items.map Item.entry).Pairwise fun a b => notAfter a b = true) (low high : K) :
    ∃ run other, list.range low high = .ok run ∧ list.between low high = .ok other ∧
      run.Pending ((items.map Item.entry).filter (within low high)) ∧
      other.Pending ((items.map Item.entry).filter (within low high)) := by
  obtain ⟨front, middle, back, before, after, rfl, ranged⟩ := ranged_ascending laid ascending low high
  obtain ⟨other, direct, pending⟩ := between_pending ranged
  rw [List.map_append, List.map_append, filter_cut ranged.cut]
  cases reached : reaches low high (front ++ middle ++ back) with
  | true =>
    refine ⟨other, other, ?_, direct, pending, pending⟩
    rw [range, overlaps_ok laid, ok_bind, reached, if_pos rfl]
    exact direct
  | false =>
    obtain rfl := middle_unreached ranged ascending reached
    exact ⟨_, other, range_outside laid reached, direct, .ended rfl, pending⟩

theorem inRange_ok (laid : Laid list items)
    (ascending : (items.map Item.entry).Pairwise fun a b => notAfter a b = true) (low high : K) :
    (list.firstBetween low high = .ok ((items.map Item.entry).filter (within low high)).head? ∧
      list.lastBetween low high = .ok ((items.map Item.entry).filter (within low high)).getLast?) ∧
    list.firstInRange low high = list.firstBetween low high ∧
      list.lastInRange low high = list.lastBetween low high := by
  obtain ⟨front, middle, back, before, after, rfl, ranged⟩ := ranged_ascending laid ascending low high
  have first := firstBetween_ok ranged
  have last := lastBetween_ok ranged
  rw [List.map_append, List.map_append, filter_cut ranged.cut]
  refine ⟨⟨first, last⟩, ?_⟩
  rw [firstInRange, lastInRange, overlaps_ok laid, ok_bind, ok_bind]
  cases reached : reaches low high (front ++ middle ++ back) with
  | true =>
    constructor
    · rw [if_pos rfl, firstBetween, following, bind_assoc]
    · rw [if_pos rfl, lastBetween, preceding, bind_assoc]
  | false =>
    obtain rfl := middle_unreached ranged ascending reached
    rw [first, last]
    exact ⟨rfl, rfl⟩

theorem lowerBound_find (laid : Laid list items)
    (ascending : (items.map Item.entry).Pairwise fun a b => notAfter a b = true) (key : K) :
    list.lowerBound key =
        .ok ((items.map Item.entry).find? fun pair => (compare pair.1 key).isGE) ∧
      list.lowerBound key = list.following fun k => (compare k key).isLT := by
  obtain ⟨first, second, whole, less, notLess⟩ := split_least ascending key
  exact bound_find laid (fun _ => Ordering.not_isLT_eq_isGE) whole less notLess lowerBound_ok

theorem upperBound_find (laid : Laid list items)
    (ascending : (items.map Item.entry).Pairwise fun a b => notAfter a b = true) (key : K) :
    list.upperBound key =
        .ok ((items.map Item.entry).find? fun pair => (compare pair.1 key).isGT) ∧
      list.upperBound key = list.following fun k => (compare k key).isLE := by
  obtain ⟨first, second, whole, fits, exceeds⟩ := split_greatest ascending key
  exact bound_find laid (fun _ => Ordering.not_isLE_eq_isGT) whole fits exceeds upperBound_ok

theorem get_find (laid : Laid list items)
    (ascending : (items.map Item.entry).Pairwise fun a b => notAfter a b = true) (key : K) :
    list.get key = .ok (((items.map Item.entry).find? (hasKey key)).map (·.2)) := by
  obtain ⟨first, second, whole, less, notLess, other⟩ := split_key ascending key
  obtain ⟨front, back, path, rfl, rfl, rfl, way⟩ :=
    way_between laid (fun k => (compare k key).isLT) whole less notLess
  rw [get_ok laid way, whole, earliest_behind (smaller_apart less)]
  rcases other with apart | ⟨earliest, later, isFirst, equal⟩
  · rw [List.find?_eq_none.mpr (by simpa using apart)]
    cases back with
    | nil => rfl
    | cons x rest => simp [apart x.entry (by simp)]
  · obtain ⟨x, rest, rfl, rfl, rfl⟩ := List.map_eq_cons_iff.mp isFirst
    simp [equal]

end Queries

section Searches

structure Searches (list : SkipList K V γ) (all : List (K × V)) : Prop where
  first : list.first = .ok all.head?
  last : list.last = .ok all.getLast?
  get : ∀ key, list.get key = .ok ((all.find? (hasKey key)).map (·.2))
  lowerBound : ∀ key, list.lowerBound key = .ok (all.find? fun pair => (compare pair.1 key).isGE)
  upperBound : ∀ key, list.upperBound key = .ok (all.find? fun pair => (compare pair.1 key).isGT)
  range : ∀ low high, ∃ run, list.range low high = .ok run ∧
    run.remaining = (all.filter (within low high)).length ∧
    run.toList = .ok (all.filter (within low high)) ∧
    run.toListBack = .ok (all.filter (within low high)).reverse
  firstInRange : ∀ low high, list.firstInRange low high = .ok (all.filter (within low high)).head?
  lastInRange : ∀ low high, list.lastInRange low high = .ok (all.filter (within low high)).getLast?

/-- The looks at the ends of the row decide nothing that the ways would not. -/
structure LooksIdle (list : SkipList K V γ) : Prop where
  lowerBound : ∀ key, list.lowerBound key = list.following fun k => (compare k key).isLT
  upperBound : ∀ key, list.upperBound key = list.following fun k => (compare k key).isLE
  range : ∀ low high, ∃ run other, list.range low high = .ok run ∧
    list.between low high = .ok other ∧ run.remaining = other.remaining ∧
    run.toList = other.toList ∧ run.toListBack = other.toListBack
  firstInRange : ∀ low high, list.firstInRange low high = list.firstBetween low high
  lastInRange : ∀ low high, list.lastInRange low high = list.lastBetween low high

variable {list : SkipList K V γ} {items : List (Item K V)} [Std.TransOrd K]

theorem laid_searches (laid : Laid list items)
    (ascending : (items.map Item.entry).Pairwise fun a b => notAfter a b = true) :
    Searches list (items.map Item.entry) where
  first := by rw [first_ok laid, List.head?_map]
  last := by rw [last_ok laid, List.getLast?_map]
  get := get_find laid ascending
  lowerBound key := (lowerBound_find laid ascending key).1
  upperBound key := (upperBound_find laid ascending key).1
  range low high := by
    obtain ⟨run, -, ranged, -, pending, -⟩ := range_pending laid ascending low high
    exact ⟨run, ranged, Run.pending_length pending, Run.toList_pending pending,
      Run.toListBack_pending pending⟩
  firstInRange low high := by
    obtain ⟨⟨first, -⟩, same, -⟩ := inRange_ok laid ascending low high
    rw [same, first]
  lastInRange low high := by
    obtain ⟨⟨-, last⟩, -, same⟩ := inRange_ok laid ascending low high
    rw [same, last]

theorem laid_looksIdle (laid : Laid list items)
    (ascending : (items.map Item.entry).Pairwise fun a b => notAfter a b = true) :
    LooksIdle list where
  lowerBound key := (lowerBound_find laid ascending key).2
  upperBound key := (upperBound_find laid ascending key).2
  range low high := by
    obtain ⟨run, other, ranged, direct, left, right⟩ := range_pending laid ascending low high
    refine ⟨run, other, ranged, direct, ?_, ?_, ?_⟩
    · rw [Run.pending_length left, Run.pending_length right]
    · rw [Run.toList_pending left, Run.toList_pending right]
    · rw [Run.toListBack_pending left, Run.toListBack_pending right]
  firstInRange low high := (inRange_ok laid ascending low high).2.1
  lastInRange low high := (inRange_ok laid ascending low high).2.2

variable [DrawSource γ]

/-- Whatever operations came before, a list answers bounds, ranges and look-ups as its entries
would, read one after the other. The order need only be total up to equal keys, and a range may
run backwards. -/
theorem queries_search (reachable : Reachable list) :
    ∃ all, list.toList = .ok all ∧ Searches list all ∧ LooksIdle list := by
  obtain ⟨survivors, items, laid, inOrder⟩ := reachable_mirrors reachable
  exact ⟨items.map Item.entry, toList_laid laid, laid_searches laid inOrder.ascending,
    laid_looksIdle laid inOrder.ascending⟩

theorem queries_search_words : ∃ list : SkipList Nat Nat Xoshiro,
    Reachable list ∧ list.len = 4 ∧ list.level = 2 ∧
      ∃ all, list.toList = .ok all ∧ Searches list all ∧ LooksIdle list := by
  obtain ⟨list, reachable, len, level⟩ := uneven_reachable
  exact ⟨list, reachable, len, level, queries_search reachable⟩

end Searches

end MemIndex.SkipList
