import MemIndex.Proofs.Histories
import MemIndex.Proofs.SkipList.Sorting
import MemIndex.SkipList.Run

/- Sequences of public operations on a skip list, and what they mean for the insertions that are
   still in force. These know nothing of levels and links. -/
namespace MemIndex.SkipList

variable {K V γ : Type}

inductive Op (K V : Type) where
  | insert (key : K) (value : V)
  | remove (key : K)
  | erase (key : K)
  | extend (entries : List (K × V))
  | clear
  | copy
  | count
  | toList
  | toListBack

inductive Answer (K V : Type) where
  | done
  | truth (holds : Bool)
  | entry (removed : Option (K × V))
  | count (n : Nat)
  | entries (all : List (K × V))

/-- The insertions that no removal has undone, in the order of their arrival. -/
abbrev Survivors (K V : Type) := List (K × V)

/-- There is room for as many entries as a store has slots, but for those of the head and the
tail. -/
def Survivors.add (survivors : Survivors K V) (entry : K × V) : Except Fault (Survivors K V) :=
  if survivors.length + 2 < Arena.maxSlots then .ok (survivors ++ [entry]) else .error .exhausted

section Running

variable [Ord K]

def Op.run [DrawSource γ] : Op K V → SkipList K V γ →
    Except Fault (Answer K V × SkipList K V γ)
  | .insert key value, list => do
    let outcome ← list.insert key value
    return (.truth outcome.answer, outcome.state)
  | .remove key, list => do
    let outcome ← list.remove key
    return (.entry outcome.answer, outcome.state)
  | .erase key, list => do
    let outcome ← list.erase key
    return (.truth outcome.answer, outcome.state)
  | .extend entries, list => do return (.done, (← list.extend entries).state)
  | .clear, list => return (.done, list.clear)
  | .copy, list => return (.done, list.copy)
  | .count, list => return (.count list.len, list)
  | .toList, list => do return (.entries (← list.toList), list)
  | .toListBack, list => do return (.entries (← list.toListBack), list)

/-- What an operation means for the survivors: a removal takes the earliest entry of its key. -/
def Op.meaning : Op K V → Survivors K V → Except Fault (Answer K V × Survivors K V)
  | .insert key value, survivors => do return (.truth true, ← survivors.add (key, value))
  | .remove key, survivors =>
    return (.entry (survivors.find? (hasKey key)), survivors.eraseP (hasKey key))
  | .erase key, survivors =>
    return (.truth (survivors.find? (hasKey key)).isSome, survivors.eraseP (hasKey key))
  | .extend entries, survivors => do return (.done, ← entries.foldlM Survivors.add survivors)
  | .clear, _ => return (.done, [])
  | .copy, survivors => return (.done, survivors)
  | .count, survivors => return (.count survivors.length, survivors)
  | .toList, survivors => return (.entries (sorted survivors), survivors)
  | .toListBack, survivors => return (.entries (sorted survivors).reverse, survivors)

inductive Reachable [DrawSource γ] : SkipList K V γ → Prop where
  | made {config : Config} (valid : config.Valid) (draws : γ) : Reachable (build config draws)
  | step {list next : SkipList K V γ} {op : Op K V} {answer : Answer K V}
    (before : Reachable list) (ran : op.run list = .ok (answer, next)) : Reachable next

theorem runAll_reachable [DrawSource γ] {ops : List (Op K V)} {list : SkipList K V γ}
    {result : List (Answer K V) × SkipList K V γ} (start : Reachable list)
    (ran : runAll Op.run ops list = .ok result) : Reachable result.2 := by
  induction ops generalizing list result with
  | nil =>
    cases ran
    exact start
  | cons op ops ih =>
    unfold runAll at ran
    cases first : op.run list with
    | error fault =>
      rw [first] at ran
      cases ran
    | ok one =>
      rw [first] at ran
      cases others : runAll Op.run ops one.2 with
      | error fault =>
        simp only [ok_bind, others, error_bind] at ran
        cases ran
      | ok rest =>
        simp only [ok_bind, others, pure_eq_ok] at ran
        cases ran
        have after : Reachable rest.2 := ih (Reachable.step start first) others
        exact after

end Running

end MemIndex.SkipList
