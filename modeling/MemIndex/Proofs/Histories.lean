import Mathlib.Algebra.Ring.Nat
import Mathlib.Data.List.Forall2
import MemIndex.Fault

/- Sequences of operations. When every single operation keeps two states related, or one state
   sound, so does any number of them. -/
namespace MemIndex

/-- Both end well and are related, or both end in the same fault. -/
def Matching {α β : Type} (related : α → β → Prop) : Except Fault α → Except Fault β → Prop
  | .ok a, .ok b => related a b
  | .error fault, .error other => fault = other
  | _, _ => False

def runAll {ω α σ : Type} (step : ω → σ → Except Fault (α × σ)) :
    List ω → σ → Except Fault (List α × σ)
  | [], state => .ok ([], state)
  | op :: ops, state => do
    let (answer, state) ← step op state
    let (answers, state) ← runAll step ops state
    return (answer :: answers, state)

theorem matching_bind {α β γ δ : Type} {first : α → β → Prop} {second : γ → δ → Prop}
    {x : Except Fault α} {y : Except Fault β} {f : α → Except Fault γ} {g : β → Except Fault δ}
    (start : Matching first x y) (rest : ∀ a b, first a b → Matching second (f a) (g b)) :
    Matching second (x >>= f) (y >>= g) := by
  cases x with
  | ok a =>
    cases y with
    | ok b => exact rest a b start
    | error fault => exact start.elim
  | error fault =>
    cases y with
    | ok b => exact start.elim
    | error other => exact start

theorem matching_imp {α β : Type} {related other : α → β → Prop} {x : Except Fault α}
    {y : Except Fault β} (start : Matching related x y) (rest : ∀ a b, related a b → other a b) :
    Matching other x y := by
  cases x with
  | ok a =>
    cases y with
    | ok b => exact rest a b start
    | error fault => exact start.elim
  | error fault =>
    cases y with
    | ok b => exact start.elim
    | error other => exact start

theorem matching_trans {α β γ : Type} {first : α → β → Prop} {second : β → γ → Prop}
    {x : Except Fault α} {y : Except Fault β} {z : Except Fault γ} (start : Matching first x y)
    (rest : Matching second y z) : Matching (fun a c => ∃ b, first a b ∧ second b c) x z := by
  cases x with
  | ok a =>
    cases y with
    | error fault => exact start.elim
    | ok b =>
      cases z with
      | ok c => exact ⟨b, start, rest⟩
      | error fault => exact rest.elim
  | error fault =>
    cases y with
    | ok b => exact start.elim
    | error other =>
      cases z with
      | ok c => exact rest.elim
      | error last => exact start.trans rest

theorem matching_map {α β γ : Type} {related : α → β → Prop} {other : α → γ → Prop}
    {x : Except Fault α} {y : Except Fault β} {g : β → γ} (start : Matching related x y)
    (rest : ∀ a b, related a b → other a (g b)) :
    Matching other x (y >>= fun b => pure (g b)) := by
  rw [← bind_pure x]
  exact matching_bind start rest

theorem matching_ok_left {α β : Type} {related : α → β → Prop} {a : α} {y : Except Fault β}
    (alike : Matching related (.ok a) y) : ∃ b, y = .ok b ∧ related a b := by
  cases y with
  | ok b => exact ⟨b, rfl, alike⟩
  | error fault => exact alike.elim

theorem matching_ok_right {α β : Type} {related : α → β → Prop} {x : Except Fault α} {b : β}
    (alike : Matching related x (.ok b)) : ∃ a, x = .ok a ∧ related a b := by
  cases x with
  | ok a => exact ⟨a, rfl, alike⟩
  | error fault => exact alike.elim

/-- Ends well, or for want of room, which only happens when it may be short. -/
def Safe {α : Type} (short : Prop) (good : α → Prop) : Except Fault α → Prop
  | .ok a => good a
  | .error fault => fault = .exhausted ∧ short

section Safety

variable {α β : Type} {short scarce : Prop} {good : α → Prop} {x : Except Fault α}

theorem safe_ok {a : α} (done : x = .ok a) (result : good a) : Safe short good x := by
  rw [done]
  exact result

theorem safe_bind {better : β → Prop} {f : α → Except Fault β} (start : Safe short good x)
    (less : short → scarce) (rest : ∀ a, good a → Safe scarce better (f a)) :
    Safe scarce better (x >>= f) := by
  cases x with
  | ok a => exact rest a start
  | error fault => exact ⟨start.1, less start.2⟩

theorem safe_imp {better : α → Prop} (safe : Safe short good x) (less : short → scarce)
    (rest : ∀ a, good a → better a) : Safe scarce better x := by
  rw [← bind_pure x]
  exact safe_bind safe less rest

theorem safe_cases (safe : Safe short good x) :
    (∃ a, x = .ok a ∧ good a) ∨ (x = .error .exhausted ∧ short) := by
  cases x with
  | ok a => exact Or.inl ⟨a, rfl, safe⟩
  | error fault => exact Or.inr ⟨congrArg Except.error safe.1, safe.2⟩

theorem safe_done (safe : Safe short good x) : Safe short (fun a => x = .ok a ∧ good a) x := by
  cases x with
  | ok a => exact ⟨rfl, safe⟩
  | error fault => exact safe

theorem safe_of_bind {better : β → Prop} {f : α → Except Fault β}
    (safe : Safe short better (x >>= f)) : Safe short (fun a => Safe short better (f a)) x := by
  cases x with
  | ok a => exact safe
  | error fault => exact safe

theorem safe_of_matching {related : α → β → Prop} {better : β → Prop} {y : Except Fault β}
    (alike : Matching related x y) (safe : Safe short good x)
    (rest : ∀ a b, related a b → good a → better b) : Safe short better y := by
  cases x with
  | ok a =>
    cases y with
    | ok b => exact rest a b alike safe
    | error fault => exact alike.elim
  | error fault =>
    cases y with
    | ok b => exact alike.elim
    | error other =>
      cases alike
      exact safe

end Safety

/-- A loop is safe when every turn of it is. What holds before a turn may speak of the turns that are
still to come. -/
theorem foldlM_safe {σ τ : Type} {turn : σ → τ → Except Fault σ} {short : Prop}
    {good : List τ → σ → Prop}
    (step : ∀ t rest s, good (t :: rest) s → Safe short (good rest) (turn s t)) (turns : List τ)
    {s : σ} (start : good turns s) : Safe short (good []) (turns.foldlM turn s) := by
  induction turns generalizing s with
  | nil => exact start
  | cons t rest ih =>
    rw [List.foldlM_cons]
    exact safe_bind (step t rest s start) id fun next after => ih after

theorem bind_eq_ok {α β : Type} {x : Except Fault α} {f : α → Except Fault β} {b : β} :
    (x >>= f) = .ok b ↔ ∃ a, x = .ok a ∧ f a = .ok b := by
  cases x with
  | ok a => simp
  | error fault => simp

theorem map_eq_ok {α β : Type} {x : Except Fault α} {f : α → β} {b : β} :
    x.map f = .ok b ↔ ∃ a, x = .ok a ∧ f a = b := by
  cases x with
  | ok a => simp [Except.map]
  | error fault => simp [Except.map]

section Folds

variable {σ τ υ : Type} {turn : σ → υ → Except Fault σ}

theorem foldlM_keeps (view : σ → τ)
    (step : ∀ s t next, turn s t = .ok next → view next = view s) {turns : List υ} {s last : σ}
    (done : turns.foldlM turn s = .ok last) : view last = view s := by
  induction turns generalizing s with
  | nil =>
    cases done
    rfl
  | cons t rest ih =>
    rw [List.foldlM_cons] at done
    obtain ⟨mid, first, others⟩ := bind_eq_ok.mp done
    exact (ih others).trans (step s t mid first)

theorem foldlM_commutes {other : τ → υ → Except Fault τ} {change : σ → τ}
    (step : ∀ s t, other (change s) t = (turn s t).map change) (turns : List υ) (s : σ) :
    turns.foldlM other (change s) = (turns.foldlM turn s).map change := by
  induction turns generalizing s with
  | nil => rfl
  | cons t rest ih =>
    rw [List.foldlM_cons, List.foldlM_cons, step]
    cases turn s t with
    | error fault => rfl
    | ok mid => exact ih mid

end Folds

section Sequences

variable {ω α β σ τ : Type} {agrees : α → β → Prop} {related : σ → τ → Prop}
  {first : ω → σ → Except Fault (α × σ)} {second : ω → τ → Except Fault (β × τ)}

theorem runAll_matching
    (step : ∀ op s t, related s t → Matching (fun expected actual => agrees expected.1 actual.1 ∧
      related expected.2 actual.2) (first op s) (second op t))
    (ops : List ω) {s : σ} {t : τ} (start : related s t) :
    Matching (fun expected actual => List.Forall₂ agrees expected.1 actual.1 ∧
      related expected.2 actual.2) (runAll first ops s) (runAll second ops t) := by
  induction ops generalizing s t with
  | nil => exact ⟨List.Forall₂.nil, start⟩
  | cons op ops ih =>
    apply matching_bind (step op s t start)
    intro expected actual one
    apply matching_bind (ih one.2)
    intro others answers rest
    exact ⟨List.Forall₂.cons one.1 rest.1, rest.2⟩

/-- Every operation has a weight. The soundness of a state and the shortage of room may depend on
the weight so far. -/
theorem runAll_safe {weight : ω → Nat} {sound : Nat → σ → Prop} {short : Nat → Prop}
    (later : ∀ m n, m ≤ n → short m → short n)
    (step : ∀ op n s, sound n s → Safe (short (n + weight op))
      (fun result => sound (n + weight op) result.2) (first op s))
    (ops : List ω) {n : Nat} {s : σ} (start : sound n s) :
    Safe (short (n + (ops.map weight).sum))
      (fun result => sound (n + (ops.map weight).sum) result.2) (runAll first ops s) := by
  induction ops generalizing n s with
  | nil => exact start
  | cons op ops ih =>
    rw [List.map_cons, List.sum_cons, ← Nat.add_assoc]
    apply safe_bind (step op n s start) (later _ _ (Nat.le_add_right _ _))
    intro one after
    exact safe_bind (ih after) id fun _ rest => rest

end Sequences

end MemIndex
