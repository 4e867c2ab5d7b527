import MemIndex.Fault

/- A store of numbered slots. Vacant slots form a list through the slots themselves, and the
   slot released last is used first, so the number of a value never changes while it is stored. -/
namespace MemIndex

inductive Slot (α : Type) where
  | occupied (value : α)
  | vacant (next : Option Nat)
  deriving DecidableEq, Repr

structure Arena (α : Type) where
  slots : Array (Slot α)
  free : Option Nat
  len : Nat
  capacity : Nat
  deriving DecidableEq, Repr

namespace Arena

variable {α : Type}

def withCapacity (capacity : Nat) : Arena α := ⟨#[], none, 0, capacity⟩

def empty : Arena α := withCapacity 0

/-- Slot numbers have 32 bits, and the last of them is not given out. -/
def maxSlots : Nat := 4294967295

def grownCapacity (capacity used : Nat) : Nat :=
  if used < capacity then capacity else max (2 * capacity) 4

def append (a : Arena α) (value : α) : Arena α :=
  { a with
    slots := a.slots.push (.occupied value)
    len := a.len + 1
    capacity := grownCapacity a.capacity a.slots.size }

def insert (a : Arena α) (value : α) : Except Fault (Nat × Arena α) :=
  match a.free with
  | some id =>
    match a.slots[id]? with
    | some (.vacant next) =>
      .ok (id, { a with
        slots := a.slots.setIfInBounds id (.occupied value)
        free := next
        len := a.len + 1 })
    | some (.occupied _) => .error .usedFreeSlot
    | none => .error (.outOfBounds a.slots.size id)
  | none =>
    if a.slots.size < maxSlots then .ok (a.slots.size, a.append value) else .error .exhausted

/-- Empties a slot and answers what it held. The slot is marked vacant before its contents are
looked at: releasing a vacant slot is refused, but leaves its link to the next one overwritten. -/
def release (a : Arena α) (id : Nat) : Except Fault α × Arena α :=
  match a.slots[id]? with
  | none => (.error (.outOfBounds a.slots.size id), a)
  | some slot =>
    let slots := a.slots.setIfInBounds id (.vacant a.free)
    match slot with
    | .occupied value => (.ok value, { a with slots, free := some id, len := a.len - 1 })
    | .vacant _ => (.error (.doubleFree id), { a with slots })

/-- Releases a slot for a caller that goes no further after a refusal. -/
def take (a : Arena α) (id : Nat) : Except Fault (α × Arena α) :=
  match a.release id with
  | (.ok value, rest) => .ok (value, rest)
  | (.error fault, _) => .error fault

def get? (a : Arena α) (id : Nat) : Option α :=
  match a.slots[id]? with
  | some (.occupied value) => some value
  | _ => none

def read (a : Arena α) (id : Nat) : Except Fault α :=
  match a.get? id with
  | some value => .ok value
  | none => .error (.dangling id)

def set? (a : Arena α) (id : Nat) (value : α) : Option (Arena α) :=
  match a.get? id with
  | some _ => some { a with slots := a.slots.setIfInBounds id (.occupied value) }
  | none => none

def write (a : Arena α) (id : Nat) (value : α) : Except Fault (Arena α) :=
  match a.set? id value with
  | some stored => .ok stored
  | none => .error (.dangling id)

def modify (a : Arena α) (id : Nat) (change : α → α) : Except Fault (Arena α) := do
  a.write id (change (← a.read id))

def clear (a : Arena α) : Arena α := withCapacity a.capacity

def copy (a : Arena α) : Arena α := { a with capacity := a.slots.size }

end Arena

end MemIndex
