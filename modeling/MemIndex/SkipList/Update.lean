import MemIndex.Outcome
import MemIndex.SkipList.Descent

/- Adding and removing entries. -/
namespace MemIndex.SkipList

variable {K V γ : Type}

inductive Event where
  | raised (before after : Nat)
  | lowered (before after : Nat)
  deriving DecidableEq, Repr

def drawLevel [DrawSource γ] (threshold : Nat) : Nat → γ → Nat × γ
  | 0, draws => (0, draws)
  | levels + 1, draws =>
    let (drawn, draws) := DrawSource.draw draws
    if drawn < threshold then
      let (level, draws) := drawLevel threshold levels draws
      (level + 1, draws)
    else (0, draws)

def openLevel (len : Nat) (nodes : Arena (Node K V)) (level : Nat) :
    Except Fault (Arena (Node K V)) :=
  setLink nodes head level ⟨tail, len⟩

/-- Brings the levels above the present highest into use, up to a new one. The head is the stop on
each of them, as long as there is room for stops. -/
def raise (list : SkipList K V γ) (level : Nat) (path : Array Stop) :
    Except Fault (SkipList K V γ × Array Stop × List Event) := do
  if level ≤ list.level then return (list, path, [])
  else if levelLimit ≤ level then throw (.outOfBounds levelLimit levelLimit)
  else
    let fresh := List.range' (list.level + 1) (level - list.level)
    let nodes ← fresh.foldlM (openLevel list.len) list.nodes
    return ({ list with nodes, level }, path ++ Array.replicate fresh.length start,
      [.raised list.level level])

def linkBehind (nodes : Arena (Node K V)) (path : Array Stop) (rank level : Nat) :
    Except Fault Link := do
  let stop ← stopAt path level
  let cut ← linkAt nodes stop.node level
  let passed ← subtract rank stop.rank
  return ⟨cut.next, ← subtract cut.span passed⟩

def lead (path : Array Stop) (rank slot : Nat) (nodes : Arena (Node K V)) (level : Nat) :
    Except Fault (Arena (Node K V)) := do
  let stop ← stopAt path level
  setLink nodes stop.node level ⟨slot, (← subtract rank stop.rank) + 1⟩

def lengthen (path : Array Stop) (nodes : Arena (Node K V)) (level : Nat) :
    Except Fault (Arena (Node K V)) := do
  let stop ← stopAt path level
  let link ← linkAt nodes stop.node level
  setLink nodes stop.node level { link with span := link.span + 1 }

def splice (nodes : Arena (Node K V)) (path : Array Stop) (top level rank slot : Nat) :
    Except Fault (Arena (Node K V)) := do
  let nodes ← (List.range (level + 1)).foldlM (lead path rank slot) nodes
  (List.range' (level + 1) (top - level)).foldlM (lengthen path) nodes

/-- Adds an entry behind all those whose keys are not greater. Always adds it. -/
def insert [Ord K] [DrawSource γ] (list : SkipList K V γ) (key : K) (value : V) :
    Except Fault (Outcome (SkipList K V γ) Event Bool) := do
  let path ← list.path fun k => (compare k key).isLE
  let (level, draws) := drawLevel list.threshold (list.maxLevels - 1) list.draws
  let (list, path, events) ← { list with draws }.raise level path
  let before ← stopAt path 0
  let links ← (List.range (level + 1)).mapM (linkBehind list.nodes path before.rank)
  let (slot, nodes) ← list.nodes.insert ⟨some (key, value), links.toArray, before.node⟩
  let nodes ← splice nodes path list.level level before.rank slot
  let after ← linkAt nodes slot 0
  let nodes ← setPrevious nodes after.next slot
  return ⟨true, { list with nodes, len := list.len + 1 }, events⟩

def bypass (path : Array Stop) (slot : Nat) (removed : Node K V) (nodes : Arena (Node K V))
    (level : Nat) : Except Fault (Arena (Node K V)) := do
  let stop ← stopAt path level
  let link ← linkAt nodes stop.node level
  if link.next = slot then
    match removed.links[level]? with
    | none => throw (.outOfBounds removed.links.size level)
    | some onward =>
      setLink nodes stop.node level ⟨onward.next, ← subtract (link.span + onward.span) 1⟩
  else setLink nodes stop.node level { link with span := ← subtract link.span 1 }

/-- The highest level, not above a given one, on which the head does not link to the tail. -/
def occupiedLevel (nodes : Arena (Node K V)) : Nat → Except Fault Nat
  | 0 => .ok 0
  | level + 1 => do
    if (← linkAt nodes head (level + 1)).next = tail then occupiedLevel nodes level
    else return level + 1

def remove [Ord K] (list : SkipList K V γ) (key : K) :
    Except Fault (Outcome (SkipList K V γ) Event (Option (K × V))) := do
  let path ← list.path fun k => (compare k key).isLT
  let before ← stopAt path 0
  let slot := (← linkAt list.nodes before.node 0).next
  if slot = tail then return ⟨none, list, []⟩
  else if (compare (← keyAt list.nodes slot) key).isNe then return ⟨none, list, []⟩
  else
    let (removed, nodes) ← list.nodes.take slot
    let nodes ← (List.range (list.level + 1)).foldlM (bypass path slot removed) nodes
    match removed.links[0]? with
    | none => throw (.outOfBounds 0 0)
    | some onward =>
      let nodes ← setPrevious nodes onward.next before.node
      let level ← occupiedLevel nodes list.level
      let len ← subtract list.len 1
      return ⟨removed.entry, { list with nodes, level, len },
        if level = list.level then [] else [.lowered list.level level]⟩

def erase [Ord K] (list : SkipList K V γ) (key : K) :
    Except Fault (Outcome (SkipList K V γ) Event Bool) := do
  let removed ← list.remove key
  return { removed with answer := removed.answer.isSome }

def extend [Ord K] [DrawSource γ] (list : SkipList K V γ) :
    List (K × V) → Except Fault (Outcome (SkipList K V γ) Event Unit)
  | [] => return ⟨(), list, []⟩
  | (key, value) :: rest => do
    let one ← list.insert key value
    let all ← one.state.extend rest
    return { all with events := one.events ++ all.events }

end MemIndex.SkipList
