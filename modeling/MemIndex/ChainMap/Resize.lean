import MemIndex.ChainMap.Basic
import MemIndex.Outcome

/- Resizing step by step, and the events that report it. -/
namespace MemIndex.ChainMap

variable {K V : Type}

inductive Event where
  | started (len old new : Nat)
  | stepped (start stop moved : Nat)
  | finished (len old new : Nat)
  deriving DecidableEq, Repr

inductive Direction where
  | grow
  | shrink
  deriving DecidableEq, Repr

def Direction.between (old new : Nat) : Direction := if old < new then .grow else .shrink

def startResize (map : ChainMap K V) : Except Fault (ChainMap K V × List Event) := do
  let old := map.active.buckets
  let new := map.config.fittingBuckets map.active.len
  if map.isResizing || !map.config.resizeDue map.active.len old then return (map, [])
  else if old = new then throw (.idleResize old)
  else
    let target ← Table.ofBuckets new
    return ({ map with phase := .resizing 0 target }, [.started map.active.len old new])

structure Transfer (K V : Type) where
  active : Table
  target : Table
  store : Store K V
  moved : Nat

def Transfer.entry (hash : K → UInt64) (transfer : Transfer K V) (placed : Nat × Entry K V) :
    Except Fault (Transfer K V) := do
  let (target, store) ← transfer.target.attach transfer.store (hash placed.2.key) placed.1
  return { transfer with target, store, moved := transfer.moved + 1 }

def Transfer.bucket (hash : K → UInt64) (transfer : Transfer K V) (bucket : Nat) :
    Except Fault (Transfer K V) := do
  let chain ← transfer.active.chain transfer.store bucket
  chain.foldlM (Transfer.entry hash)
    { transfer with active := transfer.active.setHead bucket none }

/-- Relocates the next buckets, up to a number of them. After the last one the target takes the
place of the active table, which must be empty by then. -/
def relocate (map : ChainMap K V) (steps : Nat) : Except Fault (ChainMap K V × List Event) := do
  match map.phase with
  | .stable => return (map, [])
  | .resizing cursor target =>
    let old := map.active.buckets
    let stop := min (cursor + steps) old
    let done ← (List.range' cursor (stop - cursor)).foldlM (Transfer.bucket map.hash)
      ⟨map.active, target, map.store, 0⟩
    let left ← subtract done.active.len done.moved
    let step := Event.stepped cursor stop done.moved
    if stop < old then
      return ({ map with
          store := done.store
          active := { done.active with len := left }
          phase := .resizing stop done.target },
        [step])
    else if left = 0 then
      return ({ map with store := done.store, active := done.target, phase := .stable },
        [step, .finished done.target.len old done.target.buckets])
    else throw (.leftBehind left)

def stride (map : ChainMap K V) : Except Fault Nat :=
  let old := map.active.buckets
  match map.config.pace with
  | .fixed steps => .ok steps
  | .full => .ok old
  | .auto =>
    let new := (map.target?.map Table.buckets).getD old
    if min old new = 0 then .error .divisionByZero
    else
      let factor := max old new / min old new
      .ok ((old + factor - 1) / factor)

/-- The work that an operation does before its own: begin a resize that is due, and bring a
running one forward. -/
def upkeep (map : ChainMap K V) : Except Fault (ChainMap K V × List Event) := do
  let (map, started) ← map.startResize
  if map.isResizing then
    let (map, steps) ← map.relocate (← map.stride)
    return (map, started ++ steps)
  else return (map, started)

def rehash (map : ChainMap K V) (buckets : Nat) :
    Except Fault (Outcome (ChainMap K V) Event Bool) := do
  let (map, started) ← map.startResize
  let (map, steps) ← map.relocate buckets
  return ⟨map.isResizing, map, started ++ steps⟩

def settle (map : ChainMap K V) : Except Fault (Outcome (ChainMap K V) Event Unit) := do
  let (map, steps) ← map.relocate map.active.buckets
  return ⟨(), map, steps⟩

end MemIndex.ChainMap
