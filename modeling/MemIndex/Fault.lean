/- Faults are the ways in which a store can be found corrupt. Every partial step of the
   library answers in `Except Fault`, so that being free of faults is a statement. -/
namespace MemIndex

inductive Fault where
  | doubleFree (slot : Nat)
  | dangling (slot : Nat)
  | outOfBounds (size index : Nat)
  | exhausted
  | usedFreeSlot
  | belowZero
  | divisionByZero
  | notPowerOfTwo (buckets : Nat)
  | idleResize (buckets : Nat)
  | leftBehind (entries : Nat)
  /-- A key was asked of the head or the tail of a list. -/
  | noKey (slot : Nat)
  | pastEnd
  | endless
  deriving DecidableEq, Repr

def Fault.message : Fault → String
  | .doubleFree slot => s!"double free of arena slot {slot}"
  | .dangling slot => s!"dangling node id {slot}"
  | .outOfBounds size index =>
    s!"index out of bounds: the len is {size} but the index is {index}"
  | .exhausted => "arena exhausted"
  | .usedFreeSlot => "free list points at an occupied slot"
  | .belowZero => "attempt to subtract with overflow"
  | .divisionByZero => "attempt to divide by zero"
  | .notPowerOfTwo buckets => s!"bucket count {buckets} is not a power of two"
  | .idleResize buckets => s!"resize from {buckets} buckets to as many"
  | .leftBehind entries => s!"{entries} entries left behind in the old table"
  | .noKey slot => s!"sentinel {slot} has no key"
  | .pastEnd => "a run went past the tail"
  | .endless => "a chain of links does not end"

def subtract (a b : Nat) : Except Fault Nat :=
  if b ≤ a then .ok (a - b) else .error .belowZero

@[simp] theorem ok_bind {α β : Type} (a : α) (f : α → Except Fault β) :
    (Except.ok a >>= f) = f a := rfl

@[simp] theorem error_bind {α β : Type} (fault : Fault) (f : α → Except Fault β) :
    (Except.error fault >>= f) = .error fault := rfl

@[simp] theorem pure_eq_ok {α : Type} (a : α) : (pure a : Except Fault α) = .ok a := rfl

theorem mapM_ok {α β : Type} {f : α → Except Fault β} {g : α → β} {xs : List α}
    (each : ∀ x ∈ xs, f x = .ok (g x)) : xs.mapM f = .ok (xs.map g) := by
  induction xs with
  | nil => rfl
  | cons x rest ih =>
    have first := each x List.mem_cons_self
    have others := ih fun y member => each y (List.mem_cons_of_mem _ member)
    rw [List.mapM_cons, first, ok_bind, others]
    rfl

theorem allM_ok {α : Type} {f : α → Except Fault Bool} {g : α → Bool} {xs : List α}
    (each : ∀ x ∈ xs, f x = .ok (g x)) : xs.allM f = .ok (xs.all g) := by
  induction xs with
  | nil => rfl
  | cons x rest ih =>
    have first := each x List.mem_cons_self
    have others := ih fun y member => each y (List.mem_cons_of_mem _ member)
    rw [List.allM, first, ok_bind]
    cases holds : g x with
    | false => simp [holds]
    | true => simp [holds, others]

theorem subtract_of_le {a b : Nat} (h : b ≤ a) : subtract a b = .ok (a - b) := by
  simp [subtract, h]

theorem subtract_add (a b : Nat) : subtract (a + b) b = .ok a := by
  simp [subtract]

end MemIndex
