import MemIndex.ChainMap.Access

/- Walks over the entries of a table, bucket by bucket, and what is read off them. -/
namespace MemIndex.ChainMap

variable {K V : Type}

/-- A walk through one table. It ends by its counter, not by looking through the last buckets. -/
structure Walk (K V : Type) where
  store : Store K V
  heads : Array (Option Nat)
  bucket : Nat
  chain : Option Nat
  remaining : Nat

namespace Walk

def ofTable (store : Store K V) (table : Table) (remaining : Nat) : Walk K V :=
  ⟨store, table.heads, 0, none, remaining⟩

def firstSlot (heads : Array (Option Nat)) : Nat → Nat → Option (Nat × Nat)
  | 0, _ => none
  | count + 1, bucket =>
    match heads[bucket]? with
    | some (some slot) => some (slot, bucket + 1)
    | _ => firstSlot heads count (bucket + 1)

def position? (walk : Walk K V) : Option (Nat × Nat) :=
  match walk.chain with
  | some slot => some (slot, walk.bucket)
  | none => firstSlot walk.heads (walk.heads.size - walk.bucket) walk.bucket

def next (walk : Walk K V) : Except Fault (Option (K × V) × Walk K V) := do
  if walk.remaining = 0 then return (none, walk)
  else
    match walk.position? with
    | none => return (none, walk)
    | some (slot, bucket) =>
      let entry ← walk.store.read slot
      return (some entry.pair,
        { walk with bucket, chain := entry.next, remaining := walk.remaining - 1 })

def take : Nat → Walk K V → Except Fault (List (K × V) × Walk K V)
  | 0, walk => return ([], walk)
  | n + 1, walk => do
    match ← walk.next with
    | (none, walk) => return ([], walk)
    | (some pair, walk) =>
      let (rest, walk) ← take n walk
      return (pair :: rest, walk)

def toList (walk : Walk K V) : Except Fault (List (K × V)) := do
  return (← walk.take walk.remaining).1

end Walk

/-- A walk over all entries. A running resize is brought to its end first, so that they lie in
one table. -/
def walk (map : ChainMap K V) : Except Fault (Outcome (ChainMap K V) Event (Walk K V)) := do
  let settled ← map.settle
  let map := settled.state
  return ⟨.ofTable map.store map.active map.len, map, settled.events⟩

def toList (map : ChainMap K V) :
    Except Fault (Outcome (ChainMap K V) Event (List (K × V))) := do
  let walked ← map.walk
  return ⟨← walked.answer.toList, walked.state, walked.events⟩

def keys (map : ChainMap K V) : Except Fault (Outcome (ChainMap K V) Event (List K)) := do
  let listed ← map.toList
  return { listed with answer := listed.answer.map (·.1) }

def values (map : ChainMap K V) : Except Fault (Outcome (ChainMap K V) Event (List V)) := do
  let listed ← map.toList
  return { listed with answer := listed.answer.map (·.2) }

def listing (map : ChainMap K V) : Except Fault (List (K × V)) := do
  let active ← (Walk.ofTable map.store map.active map.active.len).toList
  match map.target? with
  | none => return active
  | some target =>
    return active ++ (← (Walk.ofTable map.store target target.len).toList)

def agrees [BEq K] [BEq V] (map other : ChainMap K V) : Except Fault Bool := do
  if map.len != other.len then return false
  else
    (← map.listing).allM fun (key, value) => do
      return (← other.peek key) == some value

end MemIndex.ChainMap
