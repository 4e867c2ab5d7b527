import MemIndex.ChainMap.Basic
import MemIndex.ChainMap.Cursor

/- Reading a map in pieces. A cursor taken from one piece and given to the next stays good
   whatever happens to the map in between, resizes included. -/
namespace MemIndex.ChainMap

variable {K V : Type}

def Table.wordMask (table : Table) : UInt64 := UInt64.ofNat table.mask

def Table.pairsAt (table : Table) (store : Store K V) (cursor : UInt64) :
    Except Fault (List (K × V)) :=
  table.pairs store (cursor &&& table.wordMask).toNat

def sweep (store : Store K V) (large : Table) (smallMask : UInt64) :
    Nat → UInt64 → Except Fault (UInt64 × List (K × V))
  | 0, _ => .error .endless
  | fuel + 1, cursor => do
    let pairs ← large.pairsAt store cursor
    let next := Cursor.advance cursor large.wordMask
    if next &&& (smallMask ^^^ large.wordMask) = 0 then return (next, pairs)
    else
      let (last, rest) ← sweep store large smallMask fuel next
      return (last, pairs ++ rest)

/-- The entries that a cursor addresses, in the order they are visited, and the cursor to go on
with. A pass starts with the cursor 0 and is over when 0 comes back. -/
def scan (map : ChainMap K V) (cursor : UInt64) : Except Fault (UInt64 × List (K × V)) := do
  match map.target? with
  | none =>
    let pairs ← map.active.pairsAt map.store cursor
    return (Cursor.advance cursor map.active.wordMask, pairs)
  | some target =>
    let small := if target.buckets < map.active.buckets then target else map.active
    let large := if target.buckets < map.active.buckets then map.active else target
    let pairs ← small.pairsAt map.store cursor
    let (next, rest) ← sweep map.store large small.wordMask large.buckets cursor
    return (next, pairs ++ rest)

end MemIndex.ChainMap
