import MemIndex.ChainMap.Walk
import MemIndex.Proofs.ChainMap.Keeping
import MemIndex.Proofs.Histories

/- Sequences of public operations on a chained map, what they answer, and what a dictionary answers
   in their place. A dictionary knows nothing of hashes, tables and resizes. -/
namespace MemIndex.ChainMap

variable {K V : Type}

inductive Op (K V : Type) where
  | insert (key : K) (value : V)
  | get (key : K)
  | getEntry (key : K)
  /-- A lookup of a value that is written to. -/
  | replace (key : K) (value : V)
  | contains (key : K)
  | peek (key : K)
  | remove (key : K)
  | erase (key : K)
  | count
  | extend (pairs : List (K × V))
  /-- A new map of some pairs, with the same hash function, in place of the old one. -/
  | ofList (pairs : List (K × V))
  | clear
  | rehash (buckets : Nat)
  | settle
  | toList
  | keys
  | values
  | copy

inductive Answer (K V : Type) where
  | done
  | value (held : Option V)
  | found (result : Except LookupError V)
  | entry (result : Except LookupError (K × V))
  | truth (holds : Bool)
  | running (resizing : Bool)
  | count (n : Nat)
  | pairs (all : List (K × V))
  | keys (all : List K)
  | values (all : List V)

/-- Answers that tell the same about a dictionary. It has no order, and no resizes. -/
def Answer.Agrees : Answer K V → Answer K V → Prop
  | .pairs xs, .pairs ys => xs.Perm ys
  | .keys xs, .keys ys => xs.Perm ys
  | .values xs, .values ys => xs.Perm ys
  | .running _, .running _ => True
  | a, b => a = b

variable [BEq K]

section Running

def Op.answered {α : Type} (answer : α → Answer K V) (outcome : Outcome (ChainMap K V) Event α) :
    Answer K V × ChainMap K V := (answer outcome.answer, outcome.state)

def Op.run : Op K V → ChainMap K V → Except Fault (Answer K V × ChainMap K V)
  | .insert key value, map => do return answered .value (← map.insert key value)
  | .get key, map => do return answered .found (← map.get key)
  | .getEntry key, map => do return answered .entry (← map.getEntry key)
  | .replace key value, map => do return answered .found (← map.replace key value)
  | .contains key, map => do return answered .truth (← map.contains key)
  | .peek key, map => do return (.value (← map.peek key), map)
  | .remove key, map => do return answered .value (← map.remove key)
  | .erase key, map => do return answered .truth (← map.erase key)
  | .count, map => return (.count map.len, map)
  | .extend pairs, map => do return answered (fun _ => .done) (← map.extend pairs)
  | .ofList pairs, map => do return answered (fun _ => .done) (← ChainMap.ofList map.hash pairs)
  | .clear, map => do return (.done, ← map.clear)
  | .rehash buckets, map => do return answered .running (← map.rehash buckets)
  | .settle, map => do return answered (fun _ => .done) (← map.settle)
  | .toList, map => do return answered .pairs (← map.toList)
  | .keys, map => do return answered .keys (← map.keys)
  | .values, map => do return answered .values (← map.values)
  | .copy, map => return (.done, map.copy)

/-- The maps that operations lead to, from an empty one with accepted settings. -/
inductive Reachable (hash : K → UInt64) : ChainMap K V → Prop where
  | made {config : Config} {map : ChainMap K V} (built : ofConfig config hash = .ok map) :
    Reachable hash map
  | step {map next : ChainMap K V} {op : Op K V} {answer : Answer K V}
    (before : Reachable hash map) (ran : op.run map = .ok (answer, next)) : Reachable hash next

/-- From four buckets to eight, one at a time. The first three keys begin in one bucket, the last
operation finds the resize still running. -/
def crossing : List (Op UInt64 Nat) :=
  [.extend [(1, 10), (5, 50), (9, 90), (2, 20), (4, 40)], .insert 6 60, .get 9, .remove 5]

end Running

abbrev Dictionary (K V : Type) := List (K × V)

namespace Dictionary

variable (dict : Dictionary K V)

def lookup (key : K) : Option (K × V) := dict.find? (·.1 == key)

/-- A key that is present keeps its spelling. There is room for as many keys as a store has
slots. -/
def insert (key : K) (value : V) : Except Fault (Option V × Dictionary K V) :=
  match dict.lookup key with
  | some pair => .ok (some pair.2, dict.map (Plain.amend key value))
  | none => if dict.length < Arena.maxSlots then .ok (none, (key, value) :: dict)
    else .error .exhausted

def insertAll (pairs : List (K × V)) : Except Fault (Dictionary K V) :=
  pairs.foldlM (fun dict pair => do return (← insert dict pair.1 pair.2).2) dict

def remove (key : K) : Dictionary K V := dict.eraseP (·.1 == key)

end Dictionary

def required {α : Type} : Option α → Except LookupError α
  | some a => .ok a
  | none => .error .notFound

def Op.meaning : Op K V → Dictionary K V → Except Fault (Answer K V × Dictionary K V)
  | .insert key value, dict => do
    let (before, dict) ← dict.insert key value
    return (.value before, dict)
  | .get key, dict => return (.found (required ((dict.lookup key).map (·.2))), dict)
  | .getEntry key, dict => return (.entry (required (dict.lookup key)), dict)
  | .replace key value, dict =>
    return (.found (required ((dict.lookup key).map (·.2))), dict.map (Plain.amend key value))
  | .contains key, dict => return (.truth (dict.lookup key).isSome, dict)
  | .peek key, dict => return (.value ((dict.lookup key).map (·.2)), dict)
  | .remove key, dict => return (.value ((dict.lookup key).map (·.2)), dict.remove key)
  | .erase key, dict => return (.truth (dict.lookup key).isSome, dict.remove key)
  | .count, dict => return (.count dict.length, dict)
  | .extend pairs, dict => do return (.done, ← dict.insertAll pairs)
  | .ofList pairs, _ => do return (.done, ← Dictionary.insertAll [] pairs)
  | .clear, _ => return (.done, [])
  | .rehash _, dict => return (.running false, dict)
  | .settle, dict => return (.done, dict)
  | .toList, dict => return (.pairs dict, dict)
  | .keys, dict => return (.keys (dict.map (·.1)), dict)
  | .values, dict => return (.values (dict.map (·.2)), dict)
  | .copy, dict => return (.done, dict)

end MemIndex.ChainMap
