import MemIndex.Arena

/- Tables of chains. The entries of a map lie in one store and are linked to each other by slot
   number, so an entry changes tables without being moved. -/
namespace MemIndex.ChainMap

variable {K V : Type}

structure Entry (K V : Type) where
  key : K
  value : V
  next : Option Nat
  deriving Repr

abbrev Store (K V : Type) := Arena (Entry K V)

def Entry.pair (entry : Entry K V) : K × V := (entry.key, entry.value)

def linkedFrom (store : Store K V) : Nat → Option Nat → Except Fault (List (Nat × Entry K V))
  | _, none => .ok []
  | 0, some _ => .error .endless
  | fuel + 1, some slot => do
    let entry ← store.read slot
    let rest ← linkedFrom store fuel entry.next
    return (slot, entry) :: rest

/-- A chain that comes to an end has no more entries than the store has slots. -/
def linked (store : Store K V) (start : Option Nat) : Except Fault (List (Nat × Entry K V)) :=
  linkedFrom store store.slots.size start

structure Table where
  heads : Array (Option Nat)
  len : Nat
  deriving DecidableEq, Repr

def ceilPowerOfTwo (n : Nat) : Nat := if n ≤ 1 then 1 else 1 <<< ((n - 1).log2 + 1)

namespace Table

def blank (buckets : Nat) : Table := ⟨Array.replicate buckets none, 0⟩

def ofBuckets (buckets : Nat) : Except Fault Table :=
  if ceilPowerOfTwo buckets = buckets then .ok (blank buckets)
  else .error (.notPowerOfTwo buckets)

def buckets (table : Table) : Nat := table.heads.size

def mask (table : Table) : Nat := table.buckets - 1

def bucketFor (table : Table) (hash : UInt64) : Nat := hash.toNat &&& table.mask

def head (table : Table) (bucket : Nat) : Except Fault (Option Nat) :=
  match table.heads[bucket]? with
  | some head => .ok head
  | none => .error (.outOfBounds table.buckets bucket)

def setHead (table : Table) (bucket : Nat) (head : Option Nat) : Table :=
  { table with heads := table.heads.setIfInBounds bucket head }

def chain (table : Table) (store : Store K V) (bucket : Nat) :
    Except Fault (List (Nat × Entry K V)) := do
  linked store (← table.head bucket)

def pairs (table : Table) (store : Store K V) (bucket : Nat) : Except Fault (List (K × V)) := do
  return (← table.chain store bucket).map (·.2.pair)

def find? [BEq K] (table : Table) (store : Store K V) (hash : UInt64) (key : K) :
    Except Fault (Option Nat) := do
  let chain ← table.chain store (table.bucketFor hash)
  return (chain.find? (·.2.key == key)).map (·.1)

def attach (table : Table) (store : Store K V) (hash : UInt64) (slot : Nat) :
    Except Fault (Table × Store K V) := do
  let bucket := table.bucketFor hash
  let head ← table.head bucket
  let store ← store.modify slot ({ · with next := head })
  return ({ table.setHead bucket (some slot) with len := table.len + 1 }, store)

def detach [BEq K] (table : Table) (store : Store K V) (hash : UInt64) (key : K) :
    Except Fault (Option (Nat × Table × Store K V)) := do
  let bucket := table.bucketFor hash
  let chain ← table.chain store bucket
  let before := chain.takeWhile (·.2.key != key)
  match chain.dropWhile (·.2.key != key) with
  | [] => return none
  | (slot, entry) :: _ =>
    let len ← subtract table.len 1
    match before.getLast? with
    | none =>
      let store ← store.modify slot ({ · with next := none })
      return some (slot, { table.setHead bucket entry.next with len }, store)
    | some (previous, _) =>
      let store ← store.modify previous ({ · with next := entry.next })
      let store ← store.modify slot ({ · with next := none })
      return some (slot, { table with len }, store)

def longest (table : Table) (store : Store K V) : Except Fault Nat := do
  let chains ← (List.range table.buckets).mapM (table.chain store)
  return (chains.map List.length).foldl max 0

end Table

end MemIndex.ChainMap
