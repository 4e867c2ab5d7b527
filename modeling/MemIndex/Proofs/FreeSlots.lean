import Mathlib.Data.List.Basic
import Mathlib.Data.List.Perm.Subperm
import Mathlib.Logic.Function.Basic
import MemIndex.Arena

/- The vacant slots of an arena form one list through the slots, and every operation keeps them so.
   What an operation stores is stated on the view `get?`, which the operations change at one
   number only. -/
namespace MemIndex

variable {α : Type}

def Slot.value? : Slot α → Option α
  | .occupied value => some value
  | .vacant _ => none

namespace Arena

def VacantFrom (slots : Array (Slot α)) : Option Nat → List Nat → Prop
  | next, [] => next = none
  | next, id :: rest =>
    next = some id ∧ ∃ after, slots[id]? = some (.vacant after) ∧ VacantFrom slots after rest

structure FreeList (a : Arena α) (vacancies : List Nat) : Prop where
  linked : VacantFrom a.slots a.free vacancies
  distinct : vacancies.Nodup
  complete : ∀ id, id ∈ vacancies ↔ ∃ next, a.slots[id]? = some (.vacant next)
  count : a.len + vacancies.length = a.slots.size
  few : a.slots.size ≤ maxSlots

def Sound (a : Arena α) : Prop := ∃ vacancies, a.FreeList vacancies

def VacantTo (slots : Array (Slot α)) : Option Nat → List Nat → Option Nat → Prop
  | next, [], last => next = last
  | next, id :: rest, last =>
    next = some id ∧ ∃ after, slots[id]? = some (.vacant after) ∧ VacantTo slots after rest last

/-- The free list as far as it leads to vacant slots that it has not led to before. Where it goes on
from there, it goes to a slot in use or in a circle. -/
structure Threaded (a : Arena α) (line : List Nat) (last : Option Nat) : Prop where
  linked : VacantTo a.slots a.free line last
  once : line.Nodup
  loose : ∀ id, last = some id → (a.get? id).isSome ∨ id ∈ line

def relink (a : Arena α) (id : Nat) : Arena α :=
  { a with slots := a.slots.setIfInBounds id (.vacant a.free) }

theorem get?_eq_some_iff {a : Arena α} {id : Nat} {value : α} :
    a.get? id = some value ↔ a.slots[id]? = some (.occupied value) := by
  unfold get?
  split
  · rename_i held eq
    simp [eq]
  · rename_i other
    constructor
    · intro impossible
      cases impossible
    · intro eq
      exact absurd eq (other value)

theorem get?_eq_none_of_vacant {a : Arena α} {id : Nat} {next : Option Nat}
    (vacant : a.slots[id]? = some (.vacant next)) : a.get? id = none := by
  simp [get?, vacant]

theorem get?_eq_none_of_size_le {a : Arena α} {id : Nat} (beyond : a.slots.size ≤ id) :
    a.get? id = none := by
  simp [get?, Array.getElem?_eq_none beyond]

theorem lt_size_of_get? {a : Arena α} {id : Nat} {value : α} (held : a.get? id = some value) :
    id < a.slots.size := by
  by_contra beyond
  rw [get?_eq_none_of_size_le (Nat.le_of_not_lt beyond)] at held
  cases held

theorem len_le_size {a : Arena α} (sound : a.Sound) : a.len ≤ a.slots.size := by
  obtain ⟨vacancies, free⟩ := sound
  have := free.count
  omega

theorem len_le_maxSlots {a : Arena α} (sound : a.Sound) : a.len ≤ maxSlots := by
  obtain ⟨vacancies, free⟩ := sound
  have := free.count
  have := free.few
  omega

section Lines

variable {slots changed : Array (Slot α)} {start last : Option Nat} {line : List Nat}

theorem vacantFrom_iff : VacantFrom slots start line ↔ VacantTo slots start line none := by
  induction line generalizing start with
  | nil => exact Iff.rfl
  | cons id rest ih => simp only [VacantFrom, VacantTo, ih]

theorem vacantTo_frame (vacant : VacantTo slots start line last)
    (same : ∀ id ∈ line, changed[id]? = slots[id]?) : VacantTo changed start line last := by
  induction line generalizing start with
  | nil => exact vacant
  | cons id rest ih =>
    obtain ⟨first, after, here, tail⟩ := vacant
    refine ⟨first, after, ?_, ih tail fun other member => same other (List.mem_cons_of_mem _ member)⟩
    rw [same id List.mem_cons_self, here]

theorem vacant_of_mem (vacant : VacantTo slots start line last) {id : Nat} (member : id ∈ line) :
    ∃ next, slots[id]? = some (.vacant next) := by
  induction line generalizing start with
  | nil => cases member
  | cons first rest ih =>
    obtain ⟨-, after, here, tail⟩ := vacant
    rcases List.mem_cons.mp member with rfl | member
    · exact ⟨after, here⟩
    · exact ih tail member

end Lines

theorem vacant_iff_unused {a : Arena α} {id : Nat} :
    (∃ next, a.slots[id]? = some (.vacant next)) ↔ id < a.slots.size ∧ a.get? id = none := by
  constructor
  · rintro ⟨next, vacant⟩
    exact ⟨(Array.getElem?_eq_some_iff.mp vacant).1, get?_eq_none_of_vacant vacant⟩
  · rintro ⟨inside, unused⟩
    cases slot : a.slots[id] with
    | occupied value =>
      rw [get?_eq_some_iff.mpr (Array.getElem?_eq_some_iff.mpr ⟨inside, slot⟩)] at unused
      cases unused
    | vacant next => exact ⟨next, Array.getElem?_eq_some_iff.mpr ⟨inside, slot⟩⟩

theorem freeList_iff {a : Arena α} {vacancies : List Nat} : a.FreeList vacancies ↔
    a.Threaded vacancies none ∧ (∀ id, id ∈ vacancies ↔ id < a.slots.size ∧ a.get? id = none) ∧
      a.len + vacancies.length = a.slots.size ∧ a.slots.size ≤ maxSlots := by
  constructor
  · rintro ⟨linked, distinct, complete, count, few⟩
    exact ⟨⟨vacantFrom_iff.mp linked, distinct, fun _ ended => by cases ended⟩,
      fun id => (complete id).trans vacant_iff_unused, count, few⟩
  · rintro ⟨threaded, complete, count, few⟩
    exact ⟨vacantFrom_iff.mpr threaded.linked, threaded.once,
      fun id => (complete id).trans vacant_iff_unused.symm, count, few⟩

theorem held_not_in_line {a : Arena α} {line : List Nat} {last : Option Nat}
    (threaded : a.Threaded line last) {id : Nat} {value : α} (held : a.get? id = some value) :
    id ∉ line := by
  intro member
  obtain ⟨next, vacant⟩ := vacant_of_mem threaded.linked member
  rw [get?_eq_none_of_vacant vacant] at held
  cases held

theorem vacancies_lt_size {a : Arena α} {vacancies : List Nat} (free : a.FreeList vacancies)
    {id : Nat} {value : α} (held : a.get? id = some value) :
    vacancies.length < a.slots.size := by
  obtain ⟨threaded, complete, -⟩ := freeList_iff.mp free
  have inside : id :: vacancies ⊆ List.range a.slots.size := by
    intro other member
    rw [List.mem_range]
    rcases List.mem_cons.mp member with rfl | member
    · exact lt_size_of_get? held
    · exact ((complete other).mp member).1
  have distinct := List.nodup_cons.mpr ⟨held_not_in_line threaded held, threaded.once⟩
  have bound := distinct.length_le_of_subset inside
  simp only [List.length_cons, List.length_range] at bound
  omega

theorem getElem?_set_slot (slots : Array (Slot α)) {id : Nat} (inside : id < slots.size)
    (slot : Slot α) (other : Nat) :
    (slots.setIfInBounds id slot)[other]? = if other = id then some slot else slots[other]? := by
  by_cases same : other = id
  · subst other
    simp [inside]
  · simp [same, Array.getElem?_setIfInBounds_ne (Ne.symm same)]

theorem get?_set_slot {a b : Arena α} {id : Nat} (inside : id < a.slots.size) {slot : Slot α}
    (set : b.slots = a.slots.setIfInBounds id slot) {held : Option α} (holds : slot.value? = held) :
    b.get? = Function.update a.get? id held := by
  subst held
  funext other
  by_cases same : other = id
  · subst other
    cases slot <;> simp [get?, set, inside, Slot.value?]
  · simp [get?, set, getElem?_set_slot _ inside, same]

theorem filterMap_range_perm {β : Type} {read : Nat → Option β} {n : Nat} {ids : List Nat}
    (distinct : ids.Nodup) (stored : ∀ id, id ∈ ids ↔ id < n ∧ (read id).isSome = true) :
    ((List.range n).filterMap read).Perm (ids.filterMap read) := by
  have kept : (List.range n).filterMap read =
      ((List.range n).filter fun id => (read id).isSome).filterMap read := by
    rw [List.filterMap_filter]
    refine List.filterMap_congr fun id _ => ?_
    cases read id <;> rfl
  have same : ((List.range n).filter fun id => (read id).isSome).Perm ids := by
    apply (List.perm_ext_iff_of_nodup (List.nodup_range.filter _) distinct).mpr
    intro id
    rw [List.mem_filter, List.mem_range, stored]
  rw [kept]
  exact same.filterMap _

theorem withCapacity_sound (capacity : Nat) : (withCapacity capacity : Arena α).Sound :=
  ⟨[], ⟨rfl, List.nodup_nil, by simp [withCapacity], rfl, by simp [withCapacity]⟩⟩

@[simp] theorem withCapacity_get? (capacity id : Nat) :
    (withCapacity capacity : Arena α).get? id = none := by
  simp [get?, withCapacity]

theorem copy_sound {a : Arena α} (sound : a.Sound) : a.copy.Sound := by
  obtain ⟨vacancies, free⟩ := sound
  exact ⟨vacancies, ⟨free.linked, free.distinct, free.complete, free.count, free.few⟩⟩

section Steps

variable {a : Arena α} {line : List Nat} {last : Option Nat}

theorem insert_next {id : Nat} (threaded : a.Threaded (id :: line) last) (value : α) :
    ∃ next, a.insert value = .ok (id, next) ∧ next.Threaded line last ∧ a.get? id = none ∧
      next.get? = Function.update a.get? id (some value) ∧ next.len = a.len + 1 ∧
      next.slots.size = a.slots.size := by
  obtain ⟨first, after, vacant, tail⟩ := threaded.linked
  have inside := (Array.getElem?_eq_some_iff.mp vacant).1
  obtain ⟨fresh, once⟩ := List.nodup_cons.mp threaded.once
  let next : Arena α := { a with
    slots := a.slots.setIfInBounds id (.occupied value)
    free := after
    len := a.len + 1 }
  have view : next.get? = Function.update a.get? id (some value) := get?_set_slot inside rfl rfl
  refine ⟨next, by simp [insert, first, vacant, next], ⟨?_, once, ?_⟩,
    get?_eq_none_of_vacant vacant, view, rfl, Array.size_setIfInBounds⟩
  · apply vacantTo_frame tail
    intro other member
    rw [getElem?_set_slot a.slots inside, if_neg (by rintro rfl; exact fresh member)]
  · intro other at_
    rw [view]
    by_cases same : other = id
    · rw [same, Function.update_self]
      exact Or.inl rfl
    · rw [Function.update_of_ne same]
      exact (threaded.loose other at_).imp_right fun member =>
        (List.mem_cons.mp member).resolve_left same

theorem insert_beyond (threaded : a.Threaded [] none) (value : α) :
    a.insert value = (if a.slots.size < maxSlots then .ok (a.slots.size, a.append value)
      else .error .exhausted) ∧ (a.append value).Threaded [] none ∧
      a.get? a.slots.size = none ∧
      (a.append value).get? = Function.update a.get? a.slots.size (some value) := by
  have head : a.free = none := threaded.linked
  refine ⟨by simp [insert, head], ⟨head, List.nodup_nil, fun _ impossible => by cases impossible⟩,
    get?_eq_none_of_size_le (Nat.le_refl _), ?_⟩
  funext other
  by_cases same : other = a.slots.size
  · subst other
    simp [get?, append]
  · simp [get?, append, Array.getElem?_push, same]

theorem release_held (threaded : a.Threaded line last) {id : Nat} {value : α}
    (held : a.get? id = some value) : ∃ next, a.release id = (.ok value, next) ∧
      next.Threaded (id :: line) last ∧ next.get? = Function.update a.get? id none ∧
      next.len = a.len - 1 ∧ next.slots.size = a.slots.size := by
  have inside := lt_size_of_get? held
  have fresh := held_not_in_line threaded held
  have changed := getElem?_set_slot a.slots inside (.vacant a.free)
  let next : Arena α := { a with
    slots := a.slots.setIfInBounds id (.vacant a.free)
    free := some id
    len := a.len - 1 }
  have view : next.get? = Function.update a.get? id none := get?_set_slot inside rfl rfl
  refine ⟨next, by simp [release, get?_eq_some_iff.mp held, next],
    ⟨⟨rfl, a.free, by simp [next, changed], ?_⟩, List.nodup_cons.mpr ⟨fresh, threaded.once⟩, ?_⟩,
    view, rfl, Array.size_setIfInBounds⟩
  · apply vacantTo_frame threaded.linked
    intro other member
    rw [changed, if_neg (by rintro rfl; exact fresh member)]
  · intro other at_
    by_cases same : other = id
    · exact Or.inr (List.mem_cons.mpr (Or.inl same))
    · rw [view, Function.update_of_ne same]
      exact (threaded.loose other at_).imp_right (List.mem_cons_of_mem _)

theorem set_threaded (threaded : a.Threaded line last)
    {id : Nat} {old : α} (held : a.get? id = some old) (value : α) :
    ∃ next, a.set? id value = some next ∧ next.Threaded line last ∧
      next.get? = Function.update a.get? id (some value) ∧ next.len = a.len ∧
      next.slots.size = a.slots.size := by
  have inside := lt_size_of_get? held
  have fresh := held_not_in_line threaded held
  let next : Arena α := { a with slots := a.slots.setIfInBounds id (.occupied value) }
  have view : next.get? = Function.update a.get? id (some value) := get?_set_slot inside rfl rfl
  refine ⟨next, by simp [set?, held, next], ⟨?_, threaded.once, ?_⟩, view, rfl,
    Array.size_setIfInBounds⟩
  · apply vacantTo_frame threaded.linked
    intro other member
    rw [getElem?_set_slot a.slots inside, if_neg (by rintro rfl; exact fresh member)]
  · intro other at_
    by_cases same : other = id
    · rw [view, same, Function.update_self]
      exact Or.inl rfl
    · rw [view, Function.update_of_ne same]
      exact threaded.loose other at_

theorem relink_of_size_le {id : Nat} (beyond : a.slots.size ≤ id) : a.relink id = a := by
  rw [relink, Array.setIfInBounds_eq_of_size_le beyond]

/-- The whole of what a refused removal changes is one link. -/
theorem release_unused {id : Nat} (unused : a.get? id = none) :
    a.release id =
      (.error (if id < a.slots.size then .doubleFree id else .outOfBounds a.slots.size id),
        a.relink id) := by
  by_cases inside : id < a.slots.size
  · obtain ⟨next, vacant⟩ := vacant_iff_unused.mpr ⟨inside, unused⟩
    rw [release, vacant, if_pos inside]
    rfl
  · have beyond := Nat.le_of_not_lt inside
    rw [release, Array.getElem?_eq_none beyond, if_neg inside, relink_of_size_le beyond]

end Steps

theorem insert_reuse {a : Arena α} {id : Nat} {rest : List Nat} (free : a.FreeList (id :: rest))
    (value : α) : ∃ next, a.insert value = .ok (id, next) ∧ next.FreeList rest ∧
      a.get? id = none ∧ next.get? = Function.update a.get? id (some value) ∧
      next.len = a.len + 1 ∧ next.slots.size = a.slots.size := by
  obtain ⟨threaded, complete, count, few⟩ := freeList_iff.mp free
  obtain ⟨next, done, listed, vacant, view, len, size⟩ := insert_next threaded value
  refine ⟨next, done, freeList_iff.mpr ⟨listed, fun other => ?_, ?_, size ▸ few⟩, vacant, view, len,
    size⟩
  · rw [view, size]
    by_cases same : other = id
    · subst same
      simp [(List.nodup_cons.mp threaded.once).1]
    · rw [Function.update_of_ne same, ← complete]
      simp [same]
  · rw [size, ← count, len, List.length_cons]
    omega

theorem insert_append {a : Arena α} (free : a.FreeList []) (room : a.slots.size < maxSlots)
    (value : α) : a.insert value = .ok (a.slots.size, a.append value) ∧
      (a.append value).FreeList [] ∧ a.get? a.slots.size = none ∧
      (a.append value).get? = Function.update a.get? a.slots.size (some value) ∧
      (a.append value).len = a.len + 1 := by
  obtain ⟨threaded, complete, count, -⟩ := freeList_iff.mp free
  obtain ⟨done, listed, vacant, view⟩ := insert_beyond threaded value
  have size : (a.append value).slots.size = a.slots.size + 1 := Array.size_push ..
  rw [if_pos room] at done
  refine ⟨done, freeList_iff.mpr ⟨listed, fun other => ?_, ?_, by omega⟩, vacant, view, rfl⟩
  · rw [view, size]
    by_cases same : other = a.slots.size
    · subst same
      simp
    · have earlier : other < a.slots.size + 1 ↔ other < a.slots.size := by omega
      rw [Function.update_of_ne same, complete, earlier]
  · rw [size, ← count]
    exact Nat.add_right_comm ..

theorem insert_ok {a : Arena α} (sound : a.Sound) (room : a.len < maxSlots) (value : α) :
    ∃ id next, a.insert value = .ok (id, next) ∧ next.Sound ∧ a.get? id = none ∧
      next.get? = Function.update a.get? id (some value) ∧ next.len = a.len + 1 := by
  obtain ⟨vacancies, free⟩ := sound
  cases vacancies with
  | nil =>
    have count := free.count
    simp only [List.length_nil] at count
    obtain ⟨done, listed, rest⟩ := insert_append free (by omega) value
    exact ⟨_, _, done, ⟨_, listed⟩, rest⟩
  | cons id others =>
    obtain ⟨next, done, listed, vacant, view, len, -⟩ := insert_reuse free value
    exact ⟨id, next, done, ⟨_, listed⟩, vacant, view, len⟩

theorem insert_exhausted {a : Arena α} (sound : a.Sound) (full : a.len = maxSlots) (value : α) :
    a.insert value = .error .exhausted := by
  obtain ⟨vacancies, free⟩ := sound
  have count := free.count
  have few := free.few
  have none : vacancies = [] := List.length_eq_zero_iff.mp (by omega)
  subst none
  have noneFree : a.free = .none := free.linked
  have noRoom : ¬ a.slots.size < maxSlots := by
    simp only [List.length_nil] at count
    omega
  simp [insert, noneFree, noRoom]

theorem take_listed {a : Arena α} {vacancies : List Nat} (free : a.FreeList vacancies) {id : Nat}
    {value : α} (held : a.get? id = some value) : ∃ next, a.take id = .ok (value, next) ∧
      next.FreeList (id :: vacancies) ∧ next.get? = Function.update a.get? id none ∧
      next.len + 1 = a.len ∧ next.slots.size = a.slots.size := by
  obtain ⟨threaded, complete, count, few⟩ := freeList_iff.mp free
  obtain ⟨next, done, listed, view, len, size⟩ := release_held threaded held
  have fewer := vacancies_lt_size free held
  refine ⟨next, by rw [take, done], freeList_iff.mpr ⟨listed, fun other => ?_, ?_, size ▸ few⟩, view,
    by omega, size⟩
  · rw [view, size]
    by_cases same : other = id
    · subst same
      simp [lt_size_of_get? held]
    · rw [Function.update_of_ne same, ← complete]
      simp [same]
  · rw [List.length_cons]
    omega

theorem take_ok {a : Arena α} (sound : a.Sound) {id : Nat} {value : α}
    (held : a.get? id = some value) : ∃ next, a.take id = .ok (value, next) ∧ next.Sound ∧
      next.get? = Function.update a.get? id none ∧ next.len + 1 = a.len := by
  obtain ⟨vacancies, free⟩ := sound
  obtain ⟨next, done, listed, view, len, -⟩ := take_listed free held
  exact ⟨next, done, ⟨_, listed⟩, view, len⟩

theorem set?_listed {a : Arena α} {vacancies : List Nat} (free : a.FreeList vacancies) {id : Nat}
    {old : α} (held : a.get? id = some old) (value : α) : ∃ next, a.set? id value = some next ∧
      next.FreeList vacancies ∧ next.get? = Function.update a.get? id (some value) ∧
      next.len = a.len ∧ next.slots.size = a.slots.size := by
  obtain ⟨threaded, complete, count, few⟩ := freeList_iff.mp free
  obtain ⟨next, done, listed, view, len, size⟩ := set_threaded threaded held value
  refine ⟨next, done, freeList_iff.mpr ⟨listed, fun other => ?_, by omega, size ▸ few⟩, view, len,
    size⟩
  rw [view, size, complete]
  by_cases same : other = id
  · subst same
    simp [held]
  · rw [Function.update_of_ne same]

theorem write_ok {a : Arena α} (sound : a.Sound) {id : Nat} {old : α}
    (held : a.get? id = some old) (value : α) : ∃ next, a.write id value = .ok next ∧ next.Sound ∧
      next.get? = Function.update a.get? id (some value) ∧ next.len = a.len := by
  obtain ⟨vacancies, free⟩ := sound
  obtain ⟨next, set, listed, view, len, -⟩ := set?_listed free held value
  exact ⟨next, by simp [write, set], ⟨_, listed⟩, view, len⟩

theorem read_ok {a : Arena α} {id : Nat} {value : α} (held : a.get? id = some value) :
    a.read id = .ok value := by
  simp [read, held]

theorem modify_ok {a : Arena α} (sound : a.Sound) {id : Nat} {old : α}
    (held : a.get? id = some old) (change : α → α) :
    ∃ next, a.modify id change = .ok next ∧ next.Sound ∧
      next.get? = Function.update a.get? id (some (change old)) ∧ next.len = a.len := by
  obtain ⟨next, done, rest⟩ := write_ok sound held (change old)
  refine ⟨next, ?_, rest⟩
  simp only [modify, read_ok held]
  exact done

end Arena

end MemIndex
