import MemIndex.SkipList.Basic

/- The way down from the head: as far as a condition holds on the top level, on from there on the
   level below, and so to level 0. -/
namespace MemIndex.SkipList

variable {K V γ : Type}

structure Stop where
  node : Nat
  rank : Nat
  deriving DecidableEq, Repr

def start : Stop := ⟨head, 0⟩

def slide (nodes : Arena (Node K V)) (go : Stop → Except Fault Bool) (level : Nat) :
    Nat → Stop → Except Fault Stop
  | 0, _ => .error .endless
  | fuel + 1, stop => do
    let link ← linkAt nodes stop.node level
    if link.next = tail then return stop
    else
      let next : Stop := ⟨link.next, stop.rank + link.span⟩
      if ← go next then slide nodes go level fuel next else return stop

/-- The stops on a level and all below it, lowest first. A level has fewer links than the list
has slots. -/
def descend (nodes : Arena (Node K V)) (go : Stop → Except Fault Bool) :
    Nat → Stop → Except Fault (Array Stop)
  | 0, stop => do return #[← slide nodes go 0 nodes.slots.size stop]
  | level + 1, stop => do
    let stop ← slide nodes go (level + 1) nodes.slots.size stop
    return (← descend nodes go level stop).push stop

def stopAt (path : Array Stop) (level : Nat) : Except Fault Stop :=
  match path[level]? with
  | some stop => .ok stop
  | none => .error (.outOfBounds path.size level)

def stops (list : SkipList K V γ) (holds : K → Bool) : Except Fault (Array Stop) :=
  descend list.nodes (fun stop => return holds (← keyAt list.nodes stop.node)) list.level start

/-- The same stops, kept for a change. There is room for those of a limited number of levels. -/
def path (list : SkipList K V γ) (holds : K → Bool) : Except Fault (Array Stop) :=
  if list.level < levelLimit then list.stops holds
  else .error (.outOfBounds levelLimit list.level)

def seek (list : SkipList K V γ) (holds : K → Bool) : Except Fault Stop := do
  stopAt (← list.stops holds) 0

/-- The node of a rank. The way down ends on the first level that has a stop of this rank. -/
def nodeOfRank (nodes : Arena (Node K V)) (rank : Nat) : Nat → Stop → Except Fault (Option Nat)
  | 0, stop => do
    let stop ← slide nodes (fun next => return next.rank ≤ rank) 0 nodes.slots.size stop
    return if stop.rank = rank then some stop.node else none
  | level + 1, stop => do
    let stop ← slide nodes (fun next => return next.rank ≤ rank) (level + 1) nodes.slots.size stop
    if stop.rank = rank then return some stop.node else nodeOfRank nodes rank level stop

end MemIndex.SkipList
