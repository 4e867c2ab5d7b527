import MemIndex.Proofs.FreeSlots
import MemIndex.SkipList.Update

/- The nodes of a skip list through four views: the links, the entry, the number of links and the
   way back. An operation changes one view at one place, and the others not at all. -/
namespace MemIndex.SkipList

variable {K V : Type}

def linkOf (nodes : Arena (Node K V)) (slot level : Nat) : Option Link :=
  (nodes.get? slot).bind fun node => node.links[level]?

def entryOf (nodes : Arena (Node K V)) (slot : Nat) : Option (Option (K × V)) :=
  (nodes.get? slot).map Node.entry

def heightOf (nodes : Arena (Node K V)) (slot : Nat) : Option Nat :=
  (nodes.get? slot).map fun node => node.links.size

def previousOf (nodes : Arena (Node K V)) (slot : Nat) : Option Nat :=
  (nodes.get? slot).map Node.previous

section Reading

variable {nodes : Arena (Node K V)} {slot level : Nat}

theorem linkAt_ok {link : Link} (held : linkOf nodes slot level = some link) :
    linkAt nodes slot level = .ok link := by
  obtain ⟨node, here, onLevel⟩ := Option.bind_eq_some_iff.mp held
  simp [linkAt, Arena.read_ok here, onLevel]

theorem entryAt_ok {entry : Option (K × V)} (held : entryOf nodes slot = some entry) :
    entryAt nodes slot = .ok entry := by
  obtain ⟨node, here, rfl⟩ := Option.map_eq_some_iff.mp held
  simp [entryAt, Arena.read_ok here]

theorem keyAt_ok {key : K} {value : V} (held : entryOf nodes slot = some (some (key, value))) :
    keyAt nodes slot = .ok key := by
  simp [keyAt, entryAt_ok held]

theorem node_ok {entry : Option (K × V)} {previous : Nat} (held : entryOf nodes slot = some entry)
    (back : previousOf nodes slot = some previous) :
    ∃ node, nodes.read slot = .ok node ∧ node.entry = entry ∧ node.previous = previous := by
  obtain ⟨node, here, rfl⟩ := Option.map_eq_some_iff.mp held
  refine ⟨node, Arena.read_ok here, rfl, ?_⟩
  simpa [previousOf, here] using back

end Reading

structure Relinked (nodes changed : Arena (Node K V)) : Prop where
  sound : changed.Sound
  len : changed.len = nodes.len
  entry : ∀ slot, entryOf changed slot = entryOf nodes slot
  height : ∀ slot, heightOf changed slot = heightOf nodes slot
  previous : ∀ slot, previousOf changed slot = previousOf nodes slot

theorem relinked_refl {nodes : Arena (Node K V)} (sound : nodes.Sound) : Relinked nodes nodes :=
  ⟨sound, rfl, fun _ => rfl, fun _ => rfl, fun _ => rfl⟩

theorem relinked_trans {nodes mid last : Arena (Node K V)} (first : Relinked nodes mid)
    (second : Relinked mid last) : Relinked nodes last := by
  constructor
  · exact second.sound
  · exact second.len.trans first.len
  · intro slot
    exact (second.entry slot).trans (first.entry slot)
  · intro slot
    exact (second.height slot).trans (first.height slot)
  · intro slot
    exact (second.previous slot).trans (first.previous slot)

structure Replaced (nodes changed : Arena (Node K V)) (slot : Nat) (held : Option (Node K V)) :
    Prop where
  entry : ∀ other, entryOf changed other =
    if other = slot then held.map Node.entry else entryOf nodes other
  height : ∀ other, heightOf changed other =
    if other = slot then held.map fun node => node.links.size else heightOf nodes other
  previous : ∀ other, previousOf changed other =
    if other = slot then held.map Node.previous else previousOf nodes other
  link : ∀ other l, linkOf changed other l =
    if other = slot then held.bind fun node => node.links[l]? else linkOf nodes other l

theorem replaced_of_view {nodes changed : Arena (Node K V)} {slot : Nat}
    {held : Option (Node K V)} (view : changed.get? = Function.update nodes.get? slot held) :
    Replaced nodes changed slot held := by
  constructor
  · intro other
    by_cases same : other = slot
    · simp [entryOf, view, same]
    · simp [entryOf, view, same]
  · intro other
    by_cases same : other = slot
    · simp [heightOf, view, same]
    · simp [heightOf, view, same]
  · intro other
    by_cases same : other = slot
    · simp [previousOf, view, same]
    · simp [previousOf, view, same]
  · intro other l
    by_cases same : other = slot
    · simp [linkOf, view, same]
    · simp [linkOf, view, same]

section Changing

variable {nodes : Arena (Node K V)} (sound : nodes.Sound) {slot : Nat}

include sound

theorem setLink_ok {level : Nat} {old : Link} (held : linkOf nodes slot level = some old)
    (link : Link) : ∃ changed, setLink nodes slot level link = .ok changed ∧
      Relinked nodes changed ∧ ∀ other l, linkOf changed other l =
        if other = slot ∧ l = level then some link else linkOf nodes other l := by
  obtain ⟨node, here, onLevel⟩ := Option.bind_eq_some_iff.mp held
  have inside : level < node.links.size := (Array.getElem?_eq_some_iff.mp onLevel).1
  obtain ⟨changed, done, changedSound, view, len⟩ := Arena.write_ok sound here
    { node with links := node.links.setIfInBounds level link }
  have replaced := replaced_of_view view
  refine ⟨changed, ?_, ⟨changedSound, len, ?_, ?_, ?_⟩, ?_⟩
  · simp [setLink, Arena.read_ok here, inside, done]
  · intro other
    rw [replaced.entry]
    split <;> simp_all [entryOf]
  · intro other
    rw [replaced.height]
    split <;> simp_all [heightOf]
  · intro other
    rw [replaced.previous]
    split <;> simp_all [previousOf]
  · intro other l
    rw [replaced.link]
    by_cases same : other = slot
    · subst other
      by_cases here' : l = level
      · subst l
        simp [inside]
      · simp [linkOf, here, here', Array.getElem?_setIfInBounds_ne (Ne.symm here')]
    · simp [same]

theorem setPrevious_ok {old : Nat} (held : previousOf nodes slot = some old) (previous : Nat) :
    ∃ changed, setPrevious nodes slot previous = .ok changed ∧ changed.Sound ∧
      changed.len = nodes.len ∧ (∀ other l, linkOf changed other l = linkOf nodes other l) ∧
      (∀ other, entryOf changed other = entryOf nodes other) ∧
      (∀ other, heightOf changed other = heightOf nodes other) ∧
      ∀ other, previousOf changed other =
        if other = slot then some previous else previousOf nodes other := by
  obtain ⟨node, here, rfl⟩ := Option.map_eq_some_iff.mp held
  obtain ⟨changed, done, changedSound, view, len⟩ :=
    Arena.modify_ok sound here ({ · with previous })
  have replaced := replaced_of_view view
  refine ⟨changed, done, changedSound, len, ?_, ?_, ?_, replaced.previous⟩
  · intro other l
    rw [replaced.link]
    split <;> simp_all [linkOf]
  · intro other
    rw [replaced.entry]
    split <;> simp_all [entryOf]
  · intro other
    rw [replaced.height]
    split <;> simp_all [heightOf]

end Changing

/-- A change of one link on each of some levels. What it does on a level depends on the links of
that level only, so the levels do not get in each other's way. -/
theorem relinked_levels {change : Arena (Node K V) → Nat → Except Fault (Arena (Node K V))}
    {nodes : Arena (Node K V)} (sound : nodes.Sound) {levels : List Nat} (distinct : levels.Nodup)
    (at_ : Nat → Nat) (link : Nat → Link)
    (present : ∀ l ∈ levels, ∃ old, linkOf nodes (at_ l) l = some old)
    (step : ∀ l ∈ levels, ∀ now, (∀ slot, linkOf now slot l = linkOf nodes slot l) →
      change now l = setLink now (at_ l) l (link l)) :
    ∃ last, levels.foldlM change nodes = .ok last ∧ Relinked nodes last ∧
      ∀ slot l, linkOf last slot l =
        if l ∈ levels ∧ slot = at_ l then some (link l) else linkOf nodes slot l := by
  induction levels generalizing nodes with
  | nil => exact ⟨nodes, rfl, relinked_refl sound, by simp⟩
  | cons level rest ih =>
    obtain ⟨fresh, distinct⟩ := List.nodup_cons.mp distinct
    obtain ⟨old, held⟩ := present level List.mem_cons_self
    obtain ⟨mid, first, relinked, view⟩ := setLink_ok sound held (link level)
    have elsewhere : ∀ slot l, l ∈ rest → linkOf mid slot l = linkOf nodes slot l := by
      intro slot l member
      rw [view, if_neg]
      rintro ⟨-, rfl⟩
      exact fresh member
    obtain ⟨last, done, again, final⟩ := @ih mid relinked.sound distinct
      (by
        intro l member
        rw [elsewhere _ l member]
        exact present l (List.mem_cons_of_mem _ member))
      (by
        intro l member now same
        apply step l (List.mem_cons_of_mem _ member)
        intro slot
        rw [same, elsewhere slot l member])
    refine ⟨last, ?_, relinked_trans relinked again, ?_⟩
    · rw [List.foldlM_cons, step level List.mem_cons_self nodes (fun _ => rfl), first]
      exact done
    · intro slot l
      rw [final, view]
      by_cases here : l = level
      · subst l
        simp [fresh]
      · simp [here]

end MemIndex.SkipList
