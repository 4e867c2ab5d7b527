import MemIndex.Proofs.SkipList.Ranging

/- Runs that are read from both ends in turn. The entries are dealt out like those of a list: each
   end gets them in its own direction, and the counter keeps the two from meeting. -/
namespace MemIndex.SkipList

variable {K V γ : Type}

inductive End where
  | front
  | back
  deriving DecidableEq, Repr

namespace End

def step (side : End) (run : Run K V) : Except Fault ((Option (K × V) × Nat) × Run K V) := do
  let (entry, later) ← match side with
    | .front => run.next
    | .back => run.nextBack
  return ((entry, later.remaining), later)

variable {α : Type}

def pick (side : End) (items : List α) : Option α :=
  match side with
  | .front => items.head?
  | .back => items.getLast?

def rest (side : End) (items : List α) : List α :=
  match side with
  | .front => items.tail
  | .back => items.dropLast

/-- What a list answers that is dealt out from its ends, with what is left of it. -/
def deal : List End → List α → List (Option α × Nat) × List α
  | [], items => ([], items)
  | side :: sides, items =>
    let (given, left) := deal sides (side.rest items)
    ((side.pick items, (side.rest items).length) :: given, left)

def taken (side : End) (sides : List End) (given : List (Option α × Nat)) : List α :=
  (sides.zip given).filterMap fun turn => if turn.1 = side then turn.2.1 else none

def hits (given : List (Option α × Nat)) : Nat := given.countP (·.1.isSome)

end End

open End

/-- The answers of two ends that share a list. Each gets its elements in its own direction, the
elements that both got and those that are left make up the list, the counters tell how many are
left, and there is nothing more to be had once all have been given. -/
structure Dealt {α : Type} (items left : List α) (sides : List End)
    (given : List (Option α × Nat)) : Prop where
  length : given.length = sides.length
  front : ∀ (i : Nat) (element : α), (taken .front sides given)[i]? = some element →
    items[i]? = some element
  back : ∀ (i : Nat) (element : α), (taken .back sides given)[i]? = some element →
    items.reverse[i]? = some element
  parts : items = taken .front sides given ++ left ++ (taken .back sides given).reverse
  counted : ∀ (i : Nat) (answer : Option α × Nat), given[i]? = some answer →
    answer.2 + hits (given.take (i + 1)) = items.length
  spent : ∀ (i : Nat) (answer : Option α × Nat), given[i]? = some answer →
    (answer.1 = none ↔ hits (given.take i) = items.length)

section Lists

variable {α : Type} {items : List α} {side : End} {sides : List End}

theorem pick_cases (side : End) (items : List α) :
    (items = [] ∧ side.pick items = none ∧ side.rest items = []) ∨
      ∃ element, side.pick items = some element ∧ items.length = (side.rest items).length + 1 ∧
        match side with
        | .front => items = element :: side.rest items
        | .back => items = side.rest items ++ [element] := by
  cases side with
  | front =>
    cases items with
    | nil => exact Or.inl ⟨rfl, rfl, rfl⟩
    | cons element others => exact Or.inr ⟨element, rfl, rfl, rfl⟩
  | back =>
    rcases List.eq_nil_or_concat' items with rfl | ⟨others, element, rfl⟩
    · exact Or.inl ⟨rfl, rfl, rfl⟩
    · have rest : End.back.rest (others ++ [element]) = others := List.dropLast_concat
      rw [rest]
      exact Or.inr ⟨element, List.getLast?_concat, List.length_append, rfl⟩

theorem pick_length (side : End) (items : List α) :
    items.length = (side.rest items).length + if (side.pick items).isSome then 1 else 0 := by
  rcases pick_cases side items with ⟨rfl, none, rest⟩ | ⟨element, some, length, -⟩
  · rw [none, rest]
    rfl
  · rw [some]
    exact length

theorem hits_cons (answer : Option α × Nat) (given : List (Option α × Nat)) :
    hits (answer :: given) = hits given + if answer.1.isSome then 1 else 0 :=
  List.countP_cons

theorem taken_cons (one other : End) (answer : Option α × Nat) (given : List (Option α × Nat)) :
    taken one (other :: sides) (answer :: given) =
      (if other = one then answer.1 else none).toList ++ taken one sides given := by
  unfold taken
  rw [List.zip_cons_cons, List.filterMap_cons]
  cases (if other = one then answer.1 else none) <;> rfl

theorem deal_length (sides : List End) (items : List α) :
    (deal sides items).1.length = sides.length := by
  induction sides generalizing items with
  | nil => rfl
  | cons side sides ih => rw [deal, List.length_cons, ih, List.length_cons]

theorem deal_parts (sides : List End) (items : List α) :
    items = taken .front sides (deal sides items).1 ++ (deal sides items).2 ++
      (taken .back sides (deal sides items).1).reverse := by
  induction sides generalizing items with
  | nil => simp [taken, deal]
  | cons side sides ih =>
    have later := ih (side.rest items)
    rw [deal, taken_cons, taken_cons]
    rcases pick_cases side items with ⟨rfl, none, rest⟩ | ⟨element, some, -, whole⟩
    · rw [rest] at later
      simpa [none, rest] using later
    · rw [some]
      cases side with
      | front =>
        refine whole.trans ?_
        simpa using later
      | back =>
        refine whole.trans ?_
        simpa using congrArg (· ++ [element]) later

theorem deal_counted (sides : List End) (items : List α) (i : Nat) (answer : Option α × Nat)
    (there : (deal sides items).1[i]? = some answer) :
    answer.2 + hits ((deal sides items).1.take (i + 1)) = items.length := by
  induction sides generalizing items i with
  | nil => cases there
  | cons side sides ih =>
    have length := pick_length side items
    rw [deal] at there ⊢
    rw [List.take_succ_cons, hits_cons]
    dsimp only
    cases i with
    | zero =>
      obtain rfl := Option.some.inj there
      rw [List.take_zero]
      exact (Nat.add_assoc _ _ _).symm.trans length.symm
    | succ i =>
      have later := ih _ _ there
      omega

theorem deal_spent (sides : List End) (items : List α) (i : Nat) (answer : Option α × Nat)
    (there : (deal sides items).1[i]? = some answer) :
    answer.1 = none ↔ hits ((deal sides items).1.take i) = items.length := by
  induction sides generalizing items i with
  | nil => cases there
  | cons side sides ih =>
    rw [deal] at there ⊢
    cases i with
    | zero =>
      obtain rfl := Option.some.inj there
      rcases pick_cases side items with ⟨rfl, none, -⟩ | ⟨element, some, length, -⟩
      · simp [none, hits]
      · simp [some, hits, length]
    | succ i =>
      have length := pick_length side items
      have later := ih _ _ there
      rw [later, List.take_succ_cons, hits_cons]
      dsimp only
      omega

theorem deal_dealt (sides : List End) (items : List α) :
    Dealt items (deal sides items).2 sides (deal sides items).1 where
  length := deal_length sides items
  front i element there := by
    rw [deal_parts sides items, List.append_assoc]
    rw [List.getElem?_append_left (List.getElem?_eq_some_iff.mp there).1]
    exact there
  back i element there := by
    rw [deal_parts sides items, List.reverse_append, List.reverse_reverse]
    rw [List.getElem?_append_left (List.getElem?_eq_some_iff.mp there).1]
    exact there
  parts := deal_parts sides items
  counted := deal_counted sides items
  spent := deal_spent sides items

end Lists

section Runs

variable {run : Run K V} {entries : List (K × V)}

theorem step_pending (side : End) (pending : run.Pending entries) :
    ∃ later, side.step run = .ok ((side.pick entries, (side.rest entries).length), later) ∧
      later.Pending (side.rest entries) := by
  cases side with
  | front =>
    obtain ⟨later, stepped, rest⟩ := Run.next_pending pending
    refine ⟨later, ?_, rest⟩
    simp only [step, stepped, ok_bind, Run.pending_length rest]
    rfl
  | back =>
    obtain ⟨later, stepped, rest⟩ := Run.nextBack_pending pending
    refine ⟨later, ?_, rest⟩
    simp only [step, stepped, ok_bind, Run.pending_length rest]
    rfl

theorem steps_pending (sides : List End) (pending : run.Pending entries) :
    ∃ later, runAll End.step sides run = .ok ((deal sides entries).1, later) ∧
      later.Pending (deal sides entries).2 := by
  induction sides generalizing run entries with
  | nil => exact ⟨run, rfl, pending⟩
  | cons side sides ih =>
    obtain ⟨later, stepped, rest⟩ := step_pending side pending
    obtain ⟨last, ran, final⟩ := ih rest
    refine ⟨last, ?_, final⟩
    simp only [runAll, stepped, ok_bind, ran]
    rfl

end Runs

section Origins

inductive Origin (K : Type) where
  | whole
  | range (low high : K)

variable [Ord K]

def Origin.begin (list : SkipList K V γ) : Origin K → Except Fault (Run K V)
  | .whole => list.run
  | .range low high => list.range low high

def Origin.entries (all : List (K × V)) : Origin K → List (K × V)
  | .whole => all
  | .range low high => all.filter (within low high)

variable [Std.TransOrd K] {list : SkipList K V γ} {items : List (Item K V)}

theorem begin_pending (laid : Laid list items)
    (ascending : (items.map Item.entry).Pairwise fun a b => notAfter a b = true)
    (origin : Origin K) : ∃ run, origin.begin list = .ok run ∧
      run.Pending (origin.entries (items.map Item.entry)) := by
  cases origin with
  | whole =>
    obtain ⟨run, begun, stands⟩ := run_ok laid
    exact ⟨run, begun, .standing stands⟩
  | range low high =>
    obtain ⟨run, -, begun, -, pending, -⟩ := range_pending laid ascending low high
    exact ⟨run, begun, pending⟩

variable [DrawSource γ]

theorem runs_dealt (reachable : Reachable list) (origin : Origin K) :
    ∃ all run, list.toList = .ok all ∧ list.len = all.length ∧ origin.begin list = .ok run ∧
      run.remaining = (origin.entries all).length ∧
      ∀ sides, ∃ given later left, runAll End.step sides run = .ok (given, later) ∧
        later.toList = .ok left ∧ Dealt (origin.entries all) left sides given := by
  obtain ⟨survivors, items, laid, inOrder⟩ := reachable_mirrors reachable
  obtain ⟨run, begun, pending⟩ := begin_pending laid inOrder.ascending origin
  refine ⟨items.map Item.entry, run, toList_laid laid, ?_, begun, Run.pending_length pending, ?_⟩
  · rw [laid.len, List.length_map]
  · intro sides
    obtain ⟨later, ran, left⟩ := steps_pending sides pending
    exact ⟨_, later, _, ran, Run.toList_pending left, deal_dealt sides _⟩

theorem runs_dealt_words : ∃ list : SkipList Nat Nat Xoshiro,
    Reachable list ∧ list.len = 4 ∧ list.level = 2 ∧
      ∃ all run, list.toList = .ok all ∧ list.len = all.length ∧
        (Origin.range 3 5).begin list = .ok run ∧
        run.remaining = ((Origin.range 3 5).entries all).length ∧
        ∀ sides, ∃ given later left, runAll End.step sides run = .ok (given, later) ∧
          later.toList = .ok left ∧ Dealt ((Origin.range 3 5).entries all) left sides given := by
  obtain ⟨list, reachable, len, level⟩ := uneven_reachable
  exact ⟨list, reachable, len, level, runs_dealt reachable (.range 3 5)⟩

end Origins

end MemIndex.SkipList
