import MemIndex.SkipList.Query
import MemIndex.SkipList.Update

/- Runs of neighbouring entries, read from both ends. -/
namespace MemIndex.SkipList

variable {K V γ : Type}

/-- A run from one node to another. Both ends move inwards, and the counter tells when they have
met. -/
structure Run (K V : Type) where
  nodes : Arena (Node K V)
  front : Nat
  back : Nat
  remaining : Nat

namespace Run

def next (run : Run K V) : Except Fault (Option (K × V) × Run K V) := do
  if run.remaining = 0 then return (none, run)
  else if run.front = tail then throw .pastEnd
  else
    let link ← linkAt run.nodes run.front 0
    let entry ← entryAt run.nodes run.front
    return (entry, { run with front := link.next, remaining := run.remaining - 1 })

def nextBack (run : Run K V) : Except Fault (Option (K × V) × Run K V) := do
  if run.remaining = 0 then return (none, run)
  else
    let node ← run.nodes.read run.back
    return (node.entry, { run with back := node.previous, remaining := run.remaining - 1 })

def take (step : Run K V → Except Fault (Option (K × V) × Run K V)) :
    Nat → Run K V → Except Fault (List (K × V))
  | 0, _ => return []
  | n + 1, run => do
    match ← step run with
    | (none, _) => return []
    | (some entry, run) => return entry :: (← take step n run)

def toList (run : Run K V) : Except Fault (List (K × V)) := take next run.remaining run

def toListBack (run : Run K V) : Except Fault (List (K × V)) := take nextBack run.remaining run

end Run

def run (list : SkipList K V γ) : Except Fault (Run K V) := do
  let front ← linkAt list.nodes head 0
  let back ← list.nodes.read tail
  return ⟨list.nodes, front.next, back.previous, list.len⟩

def range [Ord K] (list : SkipList K V γ) (low high : K) : Except Fault (Run K V) := do
  if ← list.overlaps low high then
    let before ← list.seek fun k => (compare k low).isLT
    let back ← list.seek fun k => (compare k high).isLE
    let front ← linkAt list.nodes before.node 0
    return ⟨list.nodes, front.next, back.node, back.rank - before.rank⟩
  else return ⟨list.nodes, tail, head, 0⟩

def toList (list : SkipList K V γ) : Except Fault (List (K × V)) := do (← list.run).toList

def toListBack (list : SkipList K V γ) : Except Fault (List (K × V)) := do
  (← list.run).toListBack

def ofList [Ord K] (seed : UInt64) (entries : List (K × V)) :
    Except Fault (Outcome (SkipList K V Xoshiro) Event Unit) :=
  (ofSeed seed).extend entries

end MemIndex.SkipList
