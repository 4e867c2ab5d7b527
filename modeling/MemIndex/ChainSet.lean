import MemIndex.ChainMap.Scan
import MemIndex.ChainMap.Walk

/- Sets of keys: maps without values. -/
namespace MemIndex

structure ChainSet (K : Type) where
  map : ChainMap K Unit

namespace ChainSet

open ChainMap (Event LookupError)

variable {K : Type}

def ofHash (hash : K → UInt64) : ChainSet K := ⟨.ofHash hash⟩

def ofConfig (config : ChainMap.Config) (hash : K → UInt64) :
    Except ChainMap.ConfigError (ChainSet K) := do
  return ⟨← ChainMap.ofConfig config hash⟩

def copy (set : ChainSet K) : ChainSet K := ⟨set.map.copy⟩

def len (set : ChainSet K) : Nat := set.map.len

def isEmpty (set : ChainSet K) : Bool := set.map.isEmpty

def lift {α β : Type} (outcome : Outcome (ChainMap K Unit) Event α) (answer : α → β) :
    Outcome (ChainSet K) Event β :=
  ⟨answer outcome.answer, ⟨outcome.state⟩, outcome.events⟩

def insert [BEq K] (set : ChainSet K) (key : K) :
    Except Fault (Outcome (ChainSet K) Event Bool) := do
  return lift (← set.map.insert key ()) Option.isNone

def remove [BEq K] (set : ChainSet K) (key : K) :
    Except Fault (Outcome (ChainSet K) Event Bool) := do
  return lift (← set.map.erase key) id

def contains [BEq K] (set : ChainSet K) (key : K) :
    Except Fault (Outcome (ChainSet K) Event Bool) := do
  return lift (← set.map.contains key) id

def get [BEq K] (set : ChainSet K) (key : K) :
    Except Fault (Outcome (ChainSet K) Event (Except LookupError K)) := do
  return lift (← set.map.getEntry key) (·.map (·.1))

def toList (set : ChainSet K) : Except Fault (Outcome (ChainSet K) Event (List K)) := do
  return lift (← set.map.keys) id

def listing (set : ChainSet K) : Except Fault (List K) := do
  return (← set.map.listing).map (·.1)

def scan (set : ChainSet K) (cursor : UInt64) : Except Fault (UInt64 × List K) := do
  let (next, pairs) ← set.map.scan cursor
  return (next, pairs.map (·.1))

def ofList [BEq K] (hash : K → UInt64) (keys : List K) :
    Except Fault (Outcome (ChainSet K) Event Unit) := do
  return lift (← ChainMap.ofList hash (keys.map (·, ()))) id

end ChainSet

end MemIndex
