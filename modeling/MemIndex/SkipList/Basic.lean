import MemIndex.Arena
import MemIndex.Draws
import MemIndex.SkipList.Config

/- Skip lists whose links know how many entries they pass over. Entries are kept in the order of
   their keys, equal ones in the order of their arrival. Every level is a chain from the head to
   the tail, and level 0 holds all entries. -/
namespace MemIndex

namespace SkipList

structure Link where
  next : Nat
  /-- The entries passed over, the one at `next` included. -/
  span : Nat
  deriving DecidableEq, Repr

structure Node (K V : Type) where
  entry : Option (K × V)
  links : Array Link
  previous : Nat
  deriving Repr

def head : Nat := 0

def tail : Nat := 1

end SkipList

structure SkipList (K V γ : Type) where
  nodes : Arena (SkipList.Node K V)
  /-- The highest level that an entry takes part in. -/
  level : Nat
  len : Nat
  maxLevels : Nat
  /-- A draw below it takes a node to the next level. -/
  threshold : Nat
  draws : γ

namespace SkipList

variable {K V γ : Type}

/-- The head, which takes part in every level, and the tail. -/
def ends (maxLevels : Nat) : Arena (Node K V) :=
  (Arena.empty.append ⟨none, Array.replicate maxLevels ⟨tail, 0⟩, head⟩).append
    ⟨none, #[], head⟩

def build (config : Config) (draws : γ) : SkipList K V γ :=
  { nodes := ends config.maxLevels
    level := 0
    len := 0
    maxLevels := config.maxLevels
    threshold := 65536 / config.levelRatio
    draws }

def ofConfig (config : Config) (otherSeed : UInt64) :
    Except ConfigError (SkipList K V Xoshiro) := do
  config.validate
  return build config (.ofSeed (config.seed.getD otherSeed))

def ofSeed (seed : UInt64) : SkipList K V Xoshiro := build {} (.ofSeed seed)

def isEmpty (list : SkipList K V γ) : Bool := list.len == 0

def footprint (list : SkipList K V γ) (slotSize : Nat) : Nat := list.nodes.capacity * slotSize

def clear (list : SkipList K V γ) : SkipList K V γ :=
  { list with nodes := ends list.maxLevels, level := 0, len := 0 }

def copy (list : SkipList K V γ) : SkipList K V γ := { list with nodes := list.nodes.copy }

def linkAt (nodes : Arena (Node K V)) (slot level : Nat) : Except Fault Link := do
  let node ← nodes.read slot
  match node.links[level]? with
  | some link => return link
  | none => throw (.outOfBounds node.links.size level)

def setLink (nodes : Arena (Node K V)) (slot level : Nat) (link : Link) :
    Except Fault (Arena (Node K V)) := do
  let node ← nodes.read slot
  if level < node.links.size then
    nodes.write slot { node with links := node.links.setIfInBounds level link }
  else throw (.outOfBounds node.links.size level)

def setPrevious (nodes : Arena (Node K V)) (slot previous : Nat) :
    Except Fault (Arena (Node K V)) :=
  nodes.modify slot ({ · with previous })

def entryAt (nodes : Arena (Node K V)) (slot : Nat) : Except Fault (Option (K × V)) := do
  return (← nodes.read slot).entry

def keyAt (nodes : Arena (Node K V)) (slot : Nat) : Except Fault K := do
  match ← entryAt nodes slot with
  | some (key, _) => return key
  | none => throw (.noKey slot)

def entryAfter (nodes : Arena (Node K V)) (slot : Nat) : Except Fault (Option (K × V)) := do
  entryAt nodes (← linkAt nodes slot 0).next

end SkipList

end MemIndex
