import MemIndex.ChainMap.Resize
import MemIndex.Proofs.ChainMap.Rows
import MemIndex.Proofs.ChainMap.Sizes

/- A chained map without its store: each table is a list of lists of pairs. Operations are total
   here, and only the order of the pairs and the sizes of the tables remain of the layout. -/
namespace MemIndex.ChainMap

structure Plain (K V : Type) where
  active : Rows (K × V)
  moving : Option (Nat × Rows (K × V))
  config : Config
  hash : K → UInt64

namespace Plain

variable {K V : Type}

def hashOf (p : Plain K V) (pair : K × V) : UInt64 := p.hash pair.1

def target (p : Plain K V) : Rows (K × V) :=
  match p.moving with
  | none => []
  | some (_, target) => target

def entries (p : Plain K V) : List (K × V) := p.active.flatten ++ p.target.flatten

def blank (config : Config) (hash : K → UInt64) : Plain K V :=
  ⟨List.replicate config.minBuckets [], none, config, hash⟩

def startResize (p : Plain K V) : Plain K V × List Event :=
  let old := p.active.length
  let len := p.active.flatten.length
  let new := p.config.fittingBuckets len
  if p.moving.isSome || !p.config.resizeDue len old then (p, [])
  else ({ p with moving := some (0, List.replicate new []) }, [.started len old new])

def shifted (p : Plain K V) (cursor count : Nat) (target : Rows (K × V)) :
    Rows (K × V) × Rows (K × V) :=
  (List.range' cursor count).foldl (Rows.shift p.hashOf) (p.active, target)

def relocate (p : Plain K V) (steps : Nat) : Plain K V × List Event :=
  match p.moving with
  | none => (p, [])
  | some (cursor, target) =>
    let old := p.active.length
    let stop := min (cursor + steps) old
    let (active, target) := p.shifted cursor (stop - cursor) target
    let step := Event.stepped cursor stop (p.active.flatten.length - active.flatten.length)
    if stop < old then ({ p with active, moving := some (stop, target) }, [step])
    else ({ p with active := target, moving := none },
      [step, .finished target.flatten.length old target.length])

def stride (p : Plain K V) : Nat :=
  let old := p.active.length
  match p.config.pace with
  | .fixed steps => steps
  | .full => old
  | .auto =>
    let new := (p.moving.map (·.2.length)).getD old
    let factor := max old new / min old new
    (old + factor - 1) / factor

def upkeep (p : Plain K V) : Plain K V × List Event :=
  let (p, started) := p.startResize
  if p.moving.isSome then
    let (p, steps) := p.relocate p.stride
    (p, started ++ steps)
  else (p, started)

def settle (p : Plain K V) : Plain K V × List Event := p.relocate p.active.length

def put (p : Plain K V) (key : K) (value : V) : Plain K V :=
  match p.moving with
  | none => { p with active := p.active.put (p.hash key) (key, value) }
  | some (cursor, target) =>
    { p with moving := some (cursor, target.put (p.hash key) (key, value)) }

def clear (p : Plain K V) : Plain K V :=
  { p with active := List.replicate p.config.minBuckets [], moving := none }

section Searching

variable [BEq K]

def hit (p : Plain K V) (rows : Rows (K × V)) (key : K) : Option (K × V) :=
  (rows.row (bucketOf rows.length (p.hash key))).find? (·.1 == key)

def find? (p : Plain K V) (key : K) : Option (K × V) := (p.hit p.target key).or (p.hit p.active key)

def amend (key : K) (value : V) (pair : K × V) : K × V :=
  if pair.1 == key then (pair.1, value) else pair

def whereFound (p : Plain K V) (key : K) (change : Rows (K × V) → Rows (K × V)) : Plain K V :=
  match p.hit p.target key with
  | some _ => { p with moving := p.moving.map fun (cursor, target) => (cursor, change target) }
  | none => { p with active := change p.active }

def replace (p : Plain K V) (key : K) (value : V) : Plain K V :=
  p.whereFound key fun rows =>
    rows.revise (p.hash key) (·.1 == key) fun pair => (pair.1, value)

def discard (p : Plain K V) (key : K) : Plain K V :=
  p.whereFound key fun rows => rows.discard (p.hash key) (·.1 == key)

end Searching

structure Midway (p : Plain K V) (cursor : Nat) (target : Rows (K × V)) : Prop where
  size : ∃ k, target.length = 2 ^ k
  least : p.config.minBuckets ≤ target.length
  other : target.length ≠ p.active.length
  inside : cursor < p.active.length
  done : ∀ bucket, bucket < cursor → p.active.row bucket = []

/-- The sizes are in order, and every pair is filed under its hash. This needs nothing of the hash
function, which may even tell equal keys apart. -/
structure Tidy (p : Plain K V) : Prop where
  config : ∃ given : Config, given.Valid ∧ p.config = given.rounded
  size : ∃ k, p.active.length = 2 ^ k
  least : p.config.minBuckets ≤ p.active.length
  filed : Rows.Filed p.hashOf p.active
  targetFiled : Rows.Filed p.hashOf p.target
  midway : ∀ cursor target, p.moving = some (cursor, target) → p.Midway cursor target

structure Sound [BEq K] (p : Plain K V) : Prop extends Tidy p where
  distinct : p.entries.Pairwise fun x y => (x.1 == y.1) = false

theorem active_positive {p : Plain K V} (tidy : p.Tidy) : 0 < p.active.length := by
  obtain ⟨k, size⟩ := tidy.size
  rw [size]
  exact Nat.two_pow_pos k

theorem target_positive {p : Plain K V} (tidy : p.Tidy) {cursor : Nat} {target : Rows (K × V)}
    (moving : p.moving = some (cursor, target)) : 0 < target.length := by
  obtain ⟨k, size⟩ := (tidy.midway cursor target moving).size
  rw [size]
  exact Nat.two_pow_pos k

end Plain

end MemIndex.ChainMap
