import MemIndex.SkipList.Descent

/- Questions about keys, ranks and ranges. -/
namespace MemIndex.SkipList

variable {K V γ : Type}

def first (list : SkipList K V γ) : Except Fault (Option (K × V)) :=
  entryAfter list.nodes head

def last (list : SkipList K V γ) : Except Fault (Option (K × V)) := do
  entryAt list.nodes (← list.nodes.read tail).previous

def atRank (list : SkipList K V γ) (rank : Nat) : Except Fault (Option (K × V)) := do
  if rank = 0 ∨ list.len < rank then return none
  else
    match ← nodeOfRank list.nodes rank list.level start with
    | some slot => entryAt list.nodes slot
    | none => return none

variable [Ord K]

def get (list : SkipList K V γ) (key : K) : Except Fault (Option V) := do
  let before ← list.seek fun k => (compare k key).isLT
  match ← entryAfter list.nodes before.node with
  | some (k, value) => return if (compare k key).isEq then some value else none
  | none => return none

def contains (list : SkipList K V γ) (key : K) : Except Fault Bool := do
  return (← list.get key).isSome

/-- The position of the earliest entry of a key, counted from 1, or 0 if there is none. -/
def rank (list : SkipList K V γ) (key : K) : Except Fault Nat := do
  let before ← list.seek fun k => (compare k key).isLT
  let link ← linkAt list.nodes before.node 0
  if link.next = tail then return 0
  else if (compare (← keyAt list.nodes link.next) key).isEq then return before.rank + link.span
  else return 0

def lowerBound (list : SkipList K V γ) (key : K) : Except Fault (Option (K × V)) := do
  match ← list.last with
  | none => return none
  | some (greatest, _) =>
    if (compare greatest key).isLT then return none
    else entryAfter list.nodes (← list.seek fun k => (compare k key).isLT).node

def upperBound (list : SkipList K V γ) (key : K) : Except Fault (Option (K × V)) := do
  match ← list.last with
  | none => return none
  | some (greatest, _) =>
    if (compare greatest key).isLE then return none
    else entryAfter list.nodes (← list.seek fun k => (compare k key).isLE).node

def overlaps (list : SkipList K V γ) (low high : K) : Except Fault Bool := do
  if (compare low high).isGT then return false
  else
    match ← list.first, ← list.last with
    | some (least, _), some (greatest, _) =>
      return (compare low greatest).isLE && (compare high least).isGE
    | _, _ => return false

def firstInRange (list : SkipList K V γ) (low high : K) : Except Fault (Option (K × V)) := do
  if ← list.overlaps low high then
    let before ← list.seek fun k => (compare k low).isLT
    let found ← entryAfter list.nodes before.node
    return found.filter fun (k, _) => (compare k high).isLE
  else return none

def lastInRange (list : SkipList K V γ) (low high : K) : Except Fault (Option (K × V)) := do
  if ← list.overlaps low high then
    let stop ← list.seek fun k => (compare k high).isLE
    let found ← entryAt list.nodes stop.node
    return found.filter fun (k, _) => (compare k low).isGE
  else return none

end MemIndex.SkipList
