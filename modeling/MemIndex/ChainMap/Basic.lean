import MemIndex.ChainMap.Sizing

/- Hash maps with chained buckets that change size a few buckets at a time. While a resize runs
   there are two tables: the buckets of the active one below the cursor are empty, their entries
   are in the target, and so are all entries added since. -/
namespace MemIndex

namespace ChainMap

inductive Phase where
  | stable
  /-- The active bucket that is relocated next, and the table that takes the entries. -/
  | resizing (cursor : Nat) (target : Table)
  deriving DecidableEq, Repr

end ChainMap

structure ChainMap (K V : Type) where
  store : ChainMap.Store K V
  active : ChainMap.Table
  phase : ChainMap.Phase
  config : ChainMap.Config
  hash : K → UInt64

namespace ChainMap

variable {K V : Type}

def build (config : Config) (hash : K → UInt64) : ChainMap K V :=
  { store := .withCapacity config.rounded.minBuckets
    active := .blank config.rounded.minBuckets
    phase := .stable
    config := config.rounded
    hash }

def ofHash (hash : K → UInt64) : ChainMap K V := build {} hash

def ofConfig (config : Config) (hash : K → UInt64) : Except ConfigError (ChainMap K V) := do
  config.validate
  return build config hash

def len (map : ChainMap K V) : Nat := map.store.len

def isEmpty (map : ChainMap K V) : Bool := map.len == 0

def bucketCount (map : ChainMap K V) : Nat := map.active.buckets

def target? (map : ChainMap K V) : Option Table :=
  match map.phase with
  | .stable => none
  | .resizing _ target => some target

def cursor? (map : ChainMap K V) : Option Nat :=
  match map.phase with
  | .stable => none
  | .resizing cursor _ => some cursor

def isResizing (map : ChainMap K V) : Bool := map.target?.isSome

def footprint (map : ChainMap K V) (slotSize headSize : Nat) : Nat :=
  map.store.capacity * slotSize +
    (map.active.buckets + (map.target?.map Table.buckets).getD 0) * headSize

def clear (map : ChainMap K V) : Except Fault (ChainMap K V) := do
  let active ← Table.ofBuckets map.config.minBuckets
  return { map with store := map.store.clear, active, phase := .stable }

def copy (map : ChainMap K V) : ChainMap K V := { map with store := map.store.copy }

structure Stats where
  len : Nat
  buckets : Nat
  targetBuckets : Option Nat
  cursor : Option Nat
  longestChain : Nat
  deriving DecidableEq, Repr

def stats (map : ChainMap K V) : Except Fault Stats := do
  let longest ← map.active.longest map.store
  match map.phase with
  | .stable => return ⟨map.len, map.active.buckets, none, none, longest⟩
  | .resizing cursor target =>
    let other ← target.longest map.store
    return ⟨map.len, map.active.buckets, some target.buckets, some cursor, max longest other⟩

end ChainMap

end MemIndex
