import MemIndex.ChainMap.Scan
import MemIndex.ChainMap.Walk
import MemIndex.SkipList.Run

/- Handles for indexes with several users, each of whom has the index to himself for one call. A
   handle answers with values only: no walk or run outlives the call. -/
namespace MemIndex

structure SharedMap (K V : Type) where
  map : ChainMap K V

namespace SharedMap

open ChainMap (Event)

variable {K V α : Type}

def use (shared : SharedMap K V)
    (operation : ChainMap K V → Except Fault (Outcome (ChainMap K V) Event α)) :
    Except Fault (Outcome (SharedMap K V) Event α) := do
  let outcome ← operation shared.map
  return ⟨outcome.answer, ⟨outcome.state⟩, outcome.events⟩

def len (shared : SharedMap K V) : Nat := shared.map.len

def scan (shared : SharedMap K V) (cursor : UInt64) : Except Fault (UInt64 × List (K × V)) :=
  shared.map.scan cursor

variable [BEq K]

def insert (shared : SharedMap K V) (key : K) (value : V) :
    Except Fault (Outcome (SharedMap K V) Event (Option V)) :=
  shared.use (·.insert key value)

def get (shared : SharedMap K V) (key : K) :
    Except Fault (Outcome (SharedMap K V) Event (Option V)) := do
  let found ← shared.use (·.get key)
  return { found with answer := found.answer.toOption }

def contains (shared : SharedMap K V) (key : K) :
    Except Fault (Outcome (SharedMap K V) Event Bool) :=
  shared.use (·.contains key)

def remove (shared : SharedMap K V) (key : K) :
    Except Fault (Outcome (SharedMap K V) Event (Option V)) :=
  shared.use (·.remove key)

def erase (shared : SharedMap K V) (key : K) :
    Except Fault (Outcome (SharedMap K V) Event Bool) :=
  shared.use (·.erase key)

end SharedMap

structure SharedList (K V γ : Type) where
  list : SkipList K V γ

namespace SharedList

open SkipList (Event)

variable {K V γ α : Type}

def use (shared : SharedList K V γ)
    (operation : SkipList K V γ → Except Fault (Outcome (SkipList K V γ) Event α)) :
    Except Fault (Outcome (SharedList K V γ) Event α) := do
  let outcome ← operation shared.list
  return ⟨outcome.answer, ⟨outcome.state⟩, outcome.events⟩

def reading (shared : SharedList K V γ) (question : SkipList K V γ → Except Fault α) :
    Except Fault α :=
  question shared.list

def len (shared : SharedList K V γ) : Nat := shared.list.len

variable [Ord K]

def insert [DrawSource γ] (shared : SharedList K V γ) (key : K) (value : V) :
    Except Fault (Outcome (SharedList K V γ) Event Bool) :=
  shared.use (·.insert key value)

def remove (shared : SharedList K V γ) (key : K) :
    Except Fault (Outcome (SharedList K V γ) Event (Option (K × V))) :=
  shared.use (·.remove key)

def erase (shared : SharedList K V γ) (key : K) :
    Except Fault (Outcome (SharedList K V γ) Event Bool) :=
  shared.use (·.erase key)

def rank (shared : SharedList K V γ) (key : K) : Except Fault Nat :=
  shared.reading (·.rank key)

def lowerBound (shared : SharedList K V γ) (key : K) : Except Fault (Option (K × V)) :=
  shared.reading (·.lowerBound key)

def upperBound (shared : SharedList K V γ) (key : K) : Except Fault (Option (K × V)) :=
  shared.reading (·.upperBound key)

def range (shared : SharedList K V γ) (low high : K) : Except Fault (List (K × V)) :=
  shared.reading fun list => do (← list.range low high).toList

end SharedList

end MemIndex
