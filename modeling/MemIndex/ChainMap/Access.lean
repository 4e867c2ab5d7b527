import MemIndex.ChainMap.Resize

/- Looking keys up, storing and removing them. -/
namespace MemIndex.ChainMap

variable {K V : Type}

inductive LookupError where
  | notFound
  deriving DecidableEq, Repr

def LookupError.message : LookupError → String
  | .notFound => "key not found"

def link (map : ChainMap K V) (key : K) (slot : Nat) : Except Fault (ChainMap K V) := do
  match map.phase with
  | .stable =>
    let (active, store) ← map.active.attach map.store (map.hash key) slot
    return { map with active, store }
  | .resizing cursor target =>
    let (target, store) ← target.attach map.store (map.hash key) slot
    return { map with phase := .resizing cursor target, store }

variable [BEq K]

def slotOf? (map : ChainMap K V) (key : K) : Except Fault (Option Nat) := do
  match map.target? with
  | none => map.active.find? map.store (map.hash key) key
  | some target =>
    match ← target.find? map.store (map.hash key) key with
    | some slot => return some slot
    | none => map.active.find? map.store (map.hash key) key

def entryOf? (map : ChainMap K V) (key : K) : Except Fault (Option (K × V)) := do
  match ← map.slotOf? key with
  | none => return none
  | some slot => return some (← map.store.read slot).pair

/-- The value of a key. A running resize is left as it is. -/
def peek (map : ChainMap K V) (key : K) : Except Fault (Option V) := do
  return (← map.entryOf? key).map (·.2)

def getEntry (map : ChainMap K V) (key : K) :
    Except Fault (Outcome (ChainMap K V) Event (Except LookupError (K × V))) := do
  let (map, events) ← map.upkeep
  match ← map.entryOf? key with
  | none => return ⟨.error .notFound, map, events⟩
  | some entry => return ⟨.ok entry, map, events⟩

def get (map : ChainMap K V) (key : K) :
    Except Fault (Outcome (ChainMap K V) Event (Except LookupError V)) := do
  let found ← map.getEntry key
  return { found with answer := found.answer.map (·.2) }

def contains (map : ChainMap K V) (key : K) :
    Except Fault (Outcome (ChainMap K V) Event Bool) := do
  let (map, events) ← map.upkeep
  return ⟨(← map.slotOf? key).isSome, map, events⟩

def replace (map : ChainMap K V) (key : K) (value : V) :
    Except Fault (Outcome (ChainMap K V) Event (Except LookupError V)) := do
  let (map, events) ← map.upkeep
  match ← map.slotOf? key with
  | none => return ⟨.error .notFound, map, events⟩
  | some slot =>
    let entry ← map.store.read slot
    let store ← map.store.write slot { entry with value }
    return ⟨.ok entry.value, { map with store }, events⟩

def insert (map : ChainMap K V) (key : K) (value : V) :
    Except Fault (Outcome (ChainMap K V) Event (Option V)) := do
  let (map, events) ← map.upkeep
  match ← map.slotOf? key with
  | some slot =>
    let entry ← map.store.read slot
    let store ← map.store.write slot { entry with value }
    return ⟨some entry.value, { map with store }, events⟩
  | none =>
    let (slot, store) ← map.store.insert ⟨key, value, none⟩
    let map ← { map with store }.link key slot
    return ⟨none, map, events⟩

def unlinkActive (map : ChainMap K V) (key : K) :
    Except Fault (Option (Nat × ChainMap K V)) := do
  match ← map.active.detach map.store (map.hash key) key with
  | none => return none
  | some (slot, active, store) => return some (slot, { map with active, store })

def unlink (map : ChainMap K V) (key : K) : Except Fault (Option (Nat × ChainMap K V)) := do
  match map.phase with
  | .stable => map.unlinkActive key
  | .resizing cursor target =>
    match ← target.detach map.store (map.hash key) key with
    | some (slot, target, store) =>
      return some (slot, { map with phase := .resizing cursor target, store })
    | none => map.unlinkActive key

def remove (map : ChainMap K V) (key : K) :
    Except Fault (Outcome (ChainMap K V) Event (Option V)) := do
  let (map, events) ← map.upkeep
  match ← map.unlink key with
  | none => return ⟨none, map, events⟩
  | some (slot, map) =>
    let (entry, store) ← map.store.take slot
    return ⟨some entry.value, { map with store }, events⟩

def erase (map : ChainMap K V) (key : K) :
    Except Fault (Outcome (ChainMap K V) Event Bool) := do
  let removed ← map.remove key
  return { removed with answer := removed.answer.isSome }

def extend (map : ChainMap K V) :
    List (K × V) → Except Fault (Outcome (ChainMap K V) Event Unit)
  | [] => return ⟨(), map, []⟩
  | (key, value) :: rest => do
    let one ← map.insert key value
    let all ← one.state.extend rest
    return { all with events := one.events ++ all.events }

def ofList (hash : K → UInt64) (pairs : List (K × V)) :
    Except Fault (Outcome (ChainMap K V) Event Unit) :=
  (ofHash hash).extend pairs

end MemIndex.ChainMap
