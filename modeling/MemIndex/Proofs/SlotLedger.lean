import MemIndex.Proofs.FreeSlots
import MemIndex.Proofs.Histories

/- Any sequence of operations on an arena, told by a ledger: which numbers are in use and for what,
   which have been given back, the last one first, and the most that were ever in use at a time.
   The ledger knows nothing of slots or links. -/
namespace MemIndex.Arena

variable {α : Type}

inductive Op (α : Type) where
  | insert (value : α)
  | remove (id : Nat)
  | get (id : Nat)
  | set (id : Nat) (value : α)
  | count
  | clear
  | copy

inductive Answer (α : Type) where
  | done
  | slot (id : Nat)
  | value (held : Option α)
  | count (n : Nat)
  deriving DecidableEq

def Op.run : Op α → Arena α → Except Fault (Answer α × Arena α)
  | .insert value, a => do
    let (id, next) ← a.insert value
    return (.slot id, next)
  | .remove id, a => do
    let (value, next) ← a.take id
    return (.value (some value), next)
  | .get id, a => return (.value (a.get? id), a)
  | .set id value, a => return (.value (a.get? id), (a.set? id value).getD a)
  | .count, a => return (.count a.len, a)
  | .clear, a => return (.done, a.clear)
  | .copy, a => return (.done, a.copy)

structure Ledger (α : Type) where
  held : Nat → Option α
  used : Nat
  /-- The numbers given back and not in use again, the last one first. -/
  returned : List Nat
  peak : Nat

namespace Ledger

def empty : Ledger α := ⟨fun _ => none, 0, [], 0⟩

def enter (ledger : Ledger α) (id : Nat) (value : α) : Ledger α :=
  { ledger with
    held := Function.update ledger.held id (some value)
    used := ledger.used + 1
    peak := max ledger.peak (ledger.used + 1) }

/-- The number given back last is used first. A new number is used only when there is none given
back; then the numbers in use are the first ones. -/
def insert (ledger : Ledger α) (value : α) : Except Fault (Nat × Ledger α) :=
  match ledger.returned with
  | id :: rest => .ok (id, { ledger.enter id value with returned := rest })
  | [] => if ledger.used < maxSlots then .ok (ledger.used, ledger.enter ledger.used value)
    else .error .exhausted

def remove (ledger : Ledger α) (id : Nat) : Except Fault (α × Ledger α) :=
  match ledger.held id with
  | some value => .ok (value,
      { ledger with
        held := Function.update ledger.held id none
        used := ledger.used - 1
        returned := id :: ledger.returned })
  | none => .error (if id < ledger.peak then .doubleFree id else .outOfBounds ledger.peak id)

def set (ledger : Ledger α) (id : Nat) (value : α) : Ledger α :=
  match ledger.held id with
  | some _ => { ledger with held := Function.update ledger.held id (some value) }
  | none => ledger

end Ledger

def Op.meaning : Op α → Ledger α → Except Fault (Answer α × Ledger α)
  | .insert value, ledger => do
    let (id, next) ← ledger.insert value
    return (.slot id, next)
  | .remove id, ledger => do
    let (value, next) ← ledger.remove id
    return (.value (some value), next)
  | .get id, ledger => return (.value (ledger.held id), ledger)
  | .set id value, ledger => return (.value (ledger.held id), ledger.set id value)
  | .count, ledger => return (.count ledger.used, ledger)
  | .clear, _ => return (.done, .empty)
  | .copy, ledger => return (.done, ledger)

/-- The ledger says what the arena holds, which slots its free list goes through and in which
order, and how many slots there are. -/
structure Recorded (a : Arena α) (ledger : Ledger α) : Prop where
  held : a.get? = ledger.held
  free : a.FreeList ledger.returned
  used : a.len = ledger.used
  slots : a.slots.size = ledger.peak

section Counting

variable {a : Arena α} {vacancies : List Nat}

theorem len_eq_countP (free : a.FreeList vacancies) :
    a.len = (List.range a.slots.size).countP fun id => (a.get? id).isSome := by
  have total := (List.range a.slots.size).length_eq_countP_add_countP fun id => (a.get? id).isSome
  have vacant : ((List.range a.slots.size).filter fun id => !(a.get? id).isSome).Perm
      vacancies := by
    apply (List.perm_ext_iff_of_nodup (List.nodup_range.filter _) free.distinct).mpr
    intro id
    rw [(freeList_iff.mp free).2.1, List.mem_filter, List.mem_range, Bool.not_eq_true',
      Option.isSome_eq_false_iff, Option.isNone_iff_eq_none]
  have rest := vacant.length_eq
  have count := free.count
  rw [← List.countP_eq_length_filter] at rest
  simp only [List.length_range, Bool.not_eq_true, Bool.decide_eq_false] at total
  omega

end Counting

section Steps

variable {a : Arena α} {ledger : Ledger α}

theorem empty_recorded (capacity : Nat) :
    Recorded (withCapacity capacity : Arena α) Ledger.empty := by
  refine ⟨funext fun id => withCapacity_get? capacity id,
    ⟨rfl, List.nodup_nil, fun id => ?_, rfl, Nat.zero_le _⟩, rfl, rfl⟩
  simp [withCapacity, Ledger.empty]

theorem copy_recorded (recorded : a.Recorded ledger) : a.copy.Recorded ledger := by
  have free := recorded.free
  exact ⟨recorded.held, ⟨free.linked, free.distinct, free.complete, free.count, free.few⟩,
    recorded.used, recorded.slots⟩

theorem insert_recorded (recorded : a.Recorded ledger) (value : α) :
    Matching (fun expected actual => expected.1 = actual.1 ∧ actual.2.Recorded expected.2)
      (ledger.insert value) (a.insert value) := by
  obtain ⟨held, free, used, slots⟩ := recorded
  have count := free.count
  rw [Ledger.insert]
  cases returned : ledger.returned with
  | nil =>
    rw [returned] at free count
    rw [List.length_nil] at count
    by_cases room : ledger.used < maxSlots
    · obtain ⟨done, listed, -, view, len⟩ := insert_append free (by omega) value
      rw [if_pos room, done]
      refine ⟨by omega, ?_, ?_, ?_, ?_⟩
      · rw [view, held]
        change _ = Function.update ledger.held ledger.used (some value)
        rw [show a.slots.size = ledger.used by omega]
      · rw [Ledger.enter, returned]
        exact listed
      · rw [len, used]
        rfl
      · simp only [append, Array.size_push, Ledger.enter]
        omega
    · rw [if_neg room, insert_exhausted ⟨_, free⟩ (by have := free.few; omega)]
      rfl
  | cons id rest =>
    rw [returned] at free count
    rw [List.length_cons] at count
    obtain ⟨next, done, listed, -, view, len, size⟩ := insert_reuse free value
    rw [done]
    refine ⟨rfl, ?_, listed, ?_, ?_⟩
    · rw [view, held]
      rfl
    · rw [len, used]
      rfl
    · simp only [size, Ledger.enter]
      omega

theorem remove_recorded (recorded : a.Recorded ledger) (id : Nat) :
    Matching (fun expected actual => expected.1 = actual.1 ∧ actual.2.Recorded expected.2)
      (ledger.remove id) (a.take id) := by
  obtain ⟨held, free, used, slots⟩ := recorded
  rw [Ledger.remove, ← held]
  cases here : a.get? id with
  | some value =>
    obtain ⟨next, done, listed, view, len, size⟩ := take_listed free here
    rw [done]
    refine ⟨rfl, view, listed, ?_, size.trans slots⟩
    change next.len = ledger.used - 1
    omega
  | none =>
    rw [take, release_unused here, slots]
    rfl

theorem set_recorded (recorded : a.Recorded ledger) (id : Nat) (value : α) :
    ((a.set? id value).getD a).Recorded (ledger.set id value) := by
  obtain ⟨held, free, used, slots⟩ := recorded
  rw [Ledger.set, ← held]
  cases here : a.get? id with
  | some old =>
    obtain ⟨next, done, listed, view, len, size⟩ := set?_listed free here value
    rw [done]
    exact ⟨view, listed, len.trans used, size.trans slots⟩
  | none =>
    simp only [set?, here, Option.getD_none]
    exact ⟨held, free, used, slots⟩

theorem op_recorded (op : Op α) (ledger : Ledger α) (a : Arena α) (recorded : a.Recorded ledger) :
    Matching (fun expected actual => expected.1 = actual.1 ∧ actual.2.Recorded expected.2)
      (op.meaning ledger) (op.run a) := by
  cases op with
  | insert value =>
    apply matching_bind (insert_recorded recorded value)
    intro expected actual step
    exact ⟨congrArg Answer.slot step.1, step.2⟩
  | remove id =>
    apply matching_bind (remove_recorded recorded id)
    intro expected actual step
    exact ⟨congrArg (fun value => Answer.value (some value)) step.1, step.2⟩
  | get id => exact ⟨congrArg Answer.value (congrFun recorded.held id).symm, recorded⟩
  | set id value =>
    exact ⟨congrArg Answer.value (congrFun recorded.held id).symm, set_recorded recorded id value⟩
  | count => exact ⟨congrArg Answer.count recorded.used.symm, recorded⟩
  | clear => exact ⟨rfl, empty_recorded a.capacity⟩
  | copy => exact ⟨rfl, copy_recorded recorded⟩

end Steps

structure Follows (expected : List (Answer α) × Ledger α) (actual : List (Answer α) × Arena α) :
    Prop where
  answers : actual.1 = expected.1
  held : ∀ id, actual.2.get? id = expected.2.held id
  used : actual.2.len = expected.2.used
  len : actual.2.len = (List.range actual.2.slots.size).countP fun id => (actual.2.get? id).isSome
  linked : VacantFrom actual.2.slots actual.2.free expected.2.returned
  once : expected.2.returned.Nodup
  vacant : ∀ id, id ∈ expected.2.returned ↔ ∃ next, actual.2.slots[id]? = some (.vacant next)
  slots : actual.2.slots.size = expected.2.peak
  fresh : ∀ value id next, actual.2.insert value = .ok (id, next) → actual.2.get? id = none

theorem fresh_of_recorded {a : Arena α} {ledger : Ledger α} (recorded : a.Recorded ledger)
    {value : α} {id : Nat} {next : Arena α} (done : a.insert value = .ok (id, next)) :
    a.get? id = none := by
  have sound : a.Sound := ⟨_, recorded.free⟩
  by_cases room : a.len < maxSlots
  · obtain ⟨_, _, stored, -, vacant, -⟩ := insert_ok sound room value
    rw [stored] at done
    cases done
    exact vacant
  · have most := len_le_maxSlots sound
    rw [insert_exhausted sound (by omega)] at done
    cases done

/-- From an empty arena of any capacity, all operations go as the ledger says. Only a removal of a
number not in use and an insertion when all numbers are in use are refused. -/
theorem operations_follow_ledger (capacity : Nat) (ops : List (Op α)) :
    Matching Follows (runAll Op.meaning ops .empty)
      (runAll Op.run ops (withCapacity capacity)) := by
  have start := empty_recorded (α := α) capacity
  apply matching_imp (@runAll_matching _ _ _ _ _ Eq (fun ledger a => a.Recorded ledger) _ _
    op_recorded ops _ _ start)
  rintro expected actual ⟨answers, recorded⟩
  rw [List.forall₂_eq_eq_eq] at answers
  have free := recorded.free
  exact ⟨answers.symm, congrFun recorded.held, recorded.used, len_eq_countP free, free.linked,
    free.distinct, free.complete, recorded.slots, fun _ _ _ => fresh_of_recorded recorded⟩

/- Two slots are released and used again, the last one first, before a new one is added. -/
example : (runAll Op.run [.insert 10, .insert 11, .insert 12, .remove 0, .remove 2, .insert 13,
      .insert 14, .insert 15] (empty : Arena Nat)).toOption.map (·.1) =
    some [.slot 0, .slot 1, .slot 2, .value (some 10), .value (some 12), .slot 2, .slot 0,
      .slot 3] := by
  decide

end MemIndex.Arena
