/- The result of an operation on an index. Events are part of it, so that a log is a value. -/
namespace MemIndex

structure Outcome (σ ε α : Type) where
  answer : α
  state : σ
  events : List ε
  deriving Repr

end MemIndex
