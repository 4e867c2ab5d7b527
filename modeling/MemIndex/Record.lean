import MemIndex.ChainMap.Resize
import MemIndex.SkipList.Update

/- Events as log records: a level, a message, and named details. -/
namespace MemIndex

inductive Severity where
  | debug
  | trace
  deriving DecidableEq, Repr

def Severity.name : Severity → String
  | .debug => "DEBUG"
  | .trace => "TRACE"

inductive Detail where
  | count (n : Nat)
  | word (text : String)
  deriving DecidableEq, Repr

structure Record where
  severity : Severity
  message : String
  details : List (String × Detail)
  deriving DecidableEq, Repr

def ChainMap.Direction.name : Direction → String
  | .grow => "grow"
  | .shrink => "shrink"

def ChainMap.Event.record : Event → Record
  | .started len old new => ⟨.debug, "hash index resize started",
      [("len", .count len), ("from", .count old), ("to", .count new),
        ("direction", .word (Direction.between old new).name)]⟩
  | .stepped start stop moved => ⟨.trace, "hash index rehash step",
      [("from", .count start), ("to", .count stop), ("moved", .count moved)]⟩
  | .finished len old new => ⟨.debug, "hash index resize finished",
      [("len", .count len), ("from", .count old), ("to", .count new)]⟩

def SkipList.Event.record : Event → Record
  | .raised before after => ⟨.trace, "ordered index raised top level",
      [("from", .count before), ("to", .count after)]⟩
  | .lowered before after => ⟨.trace, "ordered index lowered top level",
      [("from", .count before), ("to", .count after)]⟩

end MemIndex
