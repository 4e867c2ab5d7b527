import Mathlib.Data.List.Infix
import MemIndex.Proofs.SlotLedger

/- What a refused removal leaves behind. The slot is marked vacant once more before it is found to be
   vacant, and its link then leads back to the head of the free list: the slots that came after it
   are lost, and the list runs in a circle. What is stored stays as it is, and all goes on as it
   would have gone, until an insertion comes round to a slot that is in use by then. -/
namespace MemIndex.Arena

variable {α : Type}

/-- An operation for a caller that goes on when a removal is refused. -/
def Op.attempt : Op α → Arena α → Except Fault (Except Fault (Answer α) × Arena α)
  | .remove id, a =>
    .ok ((a.release id).1.map fun value => .value (some value), (a.release id).2)
  | op, a => do
    let (answer, next) ← op.run a
    return (.ok answer, next)

def upTo (id : Nat) : List Nat → List Nat
  | [] => []
  | first :: rest => first :: if first = id then [] else upTo id rest

section Lines

theorem upTo_append {id : Nat} {front : List Nat} (fresh : id ∉ front) (back : List Nat) :
    upTo id (front ++ id :: back) = front ++ [id] := by
  induction front with
  | nil => simp [upTo]
  | cons first rest ih =>
    obtain ⟨differ, others⟩ := not_or.mp (mt List.mem_cons.mpr fresh)
    rw [List.cons_append, upTo, if_neg (Ne.symm differ), ih others, List.cons_append]

theorem upTo_eq_self {id : Nat} {line : List Nat} (fresh : id ∉ line) : upTo id line = line := by
  induction line with
  | nil => rfl
  | cons first rest ih =>
    obtain ⟨differ, others⟩ := not_or.mp (mt List.mem_cons.mpr fresh)
    rw [upTo, if_neg (Ne.symm differ), ih others]

theorem upTo_prefix {id : Nat} {front line : List Nat} (first : front <+: line) :
    upTo id front <+: upTo id line := by
  induction front generalizing line with
  | nil => exact List.nil_prefix
  | cons next rest ih =>
    obtain ⟨tail, rfl⟩ := first
    rw [List.cons_append, upTo, upTo]
    apply List.cons_prefix_cons.mpr ⟨rfl, ?_⟩
    split
    · exact List.nil_prefix
    · exact ih (List.prefix_append rest tail)

theorem upTo_prefix_self (id : Nat) (line : List Nat) : upTo id line <+: line := by
  induction line with
  | nil => exact List.nil_prefix
  | cons first rest ih =>
    apply List.cons_prefix_cons.mpr ⟨rfl, ?_⟩
    split
    · exact List.nil_prefix
    · exact ih

variable {slots : Array (Slot α)} {start last : Option Nat} {line : List Nat}

theorem vacantTo_upTo {id : Nat} (inside : id < slots.size) (head : Option Nat)
    (vacant : VacantTo slots start line last) :
    VacantTo (slots.setIfInBounds id (.vacant head)) start (upTo id line)
      (if id ∈ line then head else last) := by
  induction line generalizing start with
  | nil => exact vacant
  | cons first rest ih =>
    obtain ⟨next, after, here, tail⟩ := vacant
    rw [upTo]
    by_cases same : first = id
    · subst same
      rw [if_pos rfl, if_pos List.mem_cons_self]
      exact ⟨next, head, by rw [getElem?_set_slot slots inside, if_pos rfl], rfl⟩
    · rw [if_neg same]
      refine ⟨next, after, by rw [getElem?_set_slot slots inside, if_neg same, here], ?_⟩
      have others := ih tail
      simpa [Ne.symm same] using others

end Lines

section Steps

variable {a : Arena α} {line : List Nat} {last : Option Nat}

theorem insert_loose {id : Nat} (threaded : a.Threaded [] (some id)) (value : α) :
    a.insert value = .error .usedFreeSlot := by
  have head : a.free = some id := threaded.linked
  obtain ⟨held, here⟩ := Option.isSome_iff_exists.mp
    ((threaded.loose id rfl).resolve_right List.not_mem_nil)
  simp [insert, head, get?_eq_some_iff.mp here]

theorem relink_get? {id : Nat} (unused : a.get? id = none) : (a.relink id).get? = a.get? := by
  by_cases inside : id < a.slots.size
  · have view : (a.relink id).get? = Function.update a.get? id none := get?_set_slot inside rfl rfl
    rw [view, Function.update_eq_self_iff, unused]
  · rw [relink_of_size_le (Nat.le_of_not_lt inside)]

theorem relink_threaded (threaded : a.Threaded line last) {id : Nat} (unused : a.get? id = none) :
    (a.relink id).Threaded (upTo id line) (if id ∈ line then a.free else last) := by
  by_cases inside : id < a.slots.size
  · refine ⟨vacantTo_upTo inside a.free threaded.linked,
      threaded.once.sublist (upTo_prefix_self id line).sublist, ?_⟩
    rw [relink_get? unused]
    intro other at_
    by_cases member : id ∈ line
    · -- the link leads to the head of the line, which comes before any cut
      obtain ⟨first, rest, rfl⟩ := List.exists_cons_of_ne_nil (List.ne_nil_of_mem member)
      have head : a.free = some first := threaded.linked.1
      rw [if_pos member, head, Option.some_inj] at at_
      exact Or.inr (at_ ▸ List.mem_cons_self)
    · rw [if_neg member] at at_
      rw [upTo_eq_self member]
      exact threaded.loose other at_
  · have member : id ∉ line := by
      intro member
      obtain ⟨next, vacant⟩ := vacant_of_mem threaded.linked member
      exact inside (Array.getElem?_eq_some_iff.mp vacant).1
    rw [relink_of_size_le (Nat.le_of_not_lt inside), if_neg member, upTo_eq_self member]
    exact threaded

theorem not_mem_of_closed (threaded : a.Threaded line last) {id : Nat}
    (closed : (if id ∈ line then a.free else last) = none) : id ∉ line := by
  intro member
  obtain ⟨first, rest, rfl⟩ := List.exists_cons_of_ne_nil (List.ne_nil_of_mem member)
  rw [if_pos member, threaded.linked.1] at closed
  cases closed

end Steps

/-- The second arena is the first with links lost: it holds the same, but its line may end early. -/
structure Frayed (a b : Arena α) : Prop where
  held : b.get? = a.get?
  len : b.len = a.len
  slots : b.slots.size = a.slots.size
  line : ∃ line last front loose, a.Threaded line last ∧ b.Threaded front loose ∧ front <+: line ∧
    (loose = none → front = line ∧ last = none)

def OrTorn {β γ : Type} (related : β → γ → Prop) (expected : Except Fault β)
    (actual : Except Fault γ) : Prop :=
  actual = .error .usedFreeSlot ∨ Matching related expected actual

section Runs

variable {a b : Arena α}

theorem orTorn_bind {β γ δ ε : Type} {first : β → γ → Prop} {second : δ → ε → Prop}
    {x : Except Fault β} {y : Except Fault γ} {f : β → Except Fault δ} {g : γ → Except Fault ε}
    (start : OrTorn first x y) (rest : ∀ s t, first s t → OrTorn second (f s) (g t)) :
    OrTorn second (x >>= f) (y >>= g) := by
  rcases start with torn | alike
  · rw [torn]
    exact Or.inl rfl
  · cases x with
    | ok s =>
      cases y with
      | ok t => exact rest s t alike
      | error fault => exact alike.elim
    | error fault =>
      cases y with
      | ok t => exact alike.elim
      | error other => exact Or.inr alike

theorem insert_frayed (frayed : Frayed a b) (value : α) :
    OrTorn (fun expected actual => actual.1 = expected.1 ∧ Frayed expected.2 actual.2)
      (a.insert value) (b.insert value) := by
  obtain ⟨held, len, slots, line, last, front, loose, whole, part, first, sound⟩ := frayed
  cases front with
  | nil =>
    cases loose with
    | some id => exact Or.inl (insert_loose part value)
    | none =>
      obtain ⟨rfl, rfl⟩ := sound rfl
      obtain ⟨done, listed, -, view⟩ := insert_beyond whole value
      obtain ⟨done', listed', -, view'⟩ := insert_beyond part value
      rw [done, done', slots]
      refine Or.inr ?_
      split
      · refine ⟨rfl, by rw [view, view', held, slots], congrArg (· + 1) len, ?_,
          [], none, [], none, listed, listed', List.prefix_rfl, fun _ => ⟨rfl, rfl⟩⟩
        simp [append, slots]
      · rfl
  | cons id rest =>
    obtain ⟨tail, rfl⟩ := first
    obtain ⟨next, done, listed, -, view, count, size⟩ := insert_next whole value
    obtain ⟨next', done', listed', -, view', count', size'⟩ := insert_next part value
    rw [done, done']
    refine Or.inr ⟨rfl, by rw [view, view', held], by rw [count, count', len],
      by rw [size, size', slots], _, last, rest, loose, listed, listed', List.prefix_append _ _, ?_⟩
    intro closed
    obtain ⟨same, done⟩ := sound closed
    exact ⟨List.tail_eq_of_cons_eq same, done⟩

theorem relink_frayed (frayed : Frayed a b) {id : Nat} (unused : a.get? id = none) :
    Frayed (a.relink id) (b.relink id) := by
  obtain ⟨held, len, slots, line, last, front, loose, whole, part, first, sound⟩ := frayed
  have unused' : b.get? id = none := by rw [held, unused]
  refine ⟨by rw [relink_get? unused, relink_get? unused', held], len, by simpa [relink] using slots,
    _, _, _, _, relink_threaded whole unused, relink_threaded part unused', upTo_prefix first, ?_⟩
  intro closed
  have fresh := not_mem_of_closed part closed
  rw [if_neg fresh] at closed
  obtain ⟨rfl, done⟩ := sound closed
  exact ⟨rfl, by rw [if_neg fresh, done]⟩

theorem release_frayed (frayed : Frayed a b) (id : Nat) :
    (b.release id).1 = (a.release id).1 ∧ Frayed (a.release id).2 (b.release id).2 := by
  cases here : a.get? id with
  | none =>
    rw [release_unused here, release_unused (by rw [frayed.held, here]), frayed.slots]
    exact ⟨rfl, relink_frayed frayed here⟩
  | some value =>
    obtain ⟨held, len, slots, line, last, front, loose, whole, part, first, sound⟩ := frayed
    obtain ⟨next, done, listed, view, count, size⟩ := release_held whole here
    obtain ⟨next', done', listed', view', count', size'⟩ :=
      release_held part (by rw [held, here])
    rw [done, done']
    refine ⟨rfl, by rw [view, view', held], by rw [count, count', len], by rw [size, size', slots],
      _, last, _, loose, listed, listed', List.cons_prefix_cons.mpr ⟨rfl, first⟩, fun closed => ?_⟩
    obtain ⟨rfl, done⟩ := sound closed
    exact ⟨rfl, done⟩

theorem set_frayed (frayed : Frayed a b) (id : Nat) (value : α) :
    Frayed ((a.set? id value).getD a) ((b.set? id value).getD b) := by
  cases here : a.get? id with
  | none =>
    have unused : b.get? id = none := by rw [frayed.held, here]
    simpa [set?, here, unused] using frayed
  | some old =>
    obtain ⟨held, len, slots, line, last, front, loose, whole, part, rest⟩ := frayed
    obtain ⟨next, done, listed, view, count, size⟩ := set_threaded whole here value
    obtain ⟨next', done', listed', view', count', size'⟩ :=
      set_threaded part (by rw [held, here]) value
    rw [done, done']
    exact ⟨by rw [Option.getD_some, Option.getD_some, view, view', held],
      by rw [Option.getD_some, Option.getD_some, count, count', len],
      by rw [Option.getD_some, Option.getD_some, size, size', slots],
      line, last, front, loose, listed, listed', rest⟩

theorem new_threaded (capacity : Nat) : (withCapacity capacity : Arena α).Threaded [] none :=
  ⟨rfl, List.nodup_nil, fun _ impossible => by cases impossible⟩

theorem frayed_self {line : List Nat} {last : Option Nat} (threaded : a.Threaded line last) :
    Frayed a a :=
  ⟨rfl, rfl, rfl, line, last, line, last, threaded, threaded, List.prefix_rfl,
    fun closed => ⟨rfl, closed⟩⟩

theorem frayed_right (frayed : Frayed a b) : Frayed b b := by
  obtain ⟨_, _, _, _, -, part, -⟩ := frayed.line
  exact frayed_self part

theorem clear_frayed (a b : Arena α) : Frayed a.clear b.clear := by
  refine ⟨funext fun id => ?_, rfl, rfl, [], none, [], none, new_threaded _, new_threaded _,
    List.prefix_rfl, fun _ => ⟨rfl, rfl⟩⟩
  rw [clear, clear, withCapacity_get?, withCapacity_get?]

theorem copy_frayed (frayed : Frayed a b) : Frayed a.copy b.copy := by
  obtain ⟨held, len, slots, line, last, front, loose, whole, part, rest⟩ := frayed
  exact ⟨held, len, slots, line, last, front, loose, ⟨whole.linked, whole.once, whole.loose⟩,
    ⟨part.linked, part.once, part.loose⟩, rest⟩

theorem op_frayed (op : Op α) (frayed : Frayed a b) :
    OrTorn (fun expected actual => actual.1 = expected.1 ∧ Frayed expected.2 actual.2)
      (op.attempt a) (op.attempt b) := by
  cases op with
  | insert value =>
    have stored : OrTorn (fun expected actual => actual.1 = expected.1 ∧ Frayed expected.2 actual.2)
        ((Op.insert value).run a) ((Op.insert value).run b) :=
      orTorn_bind (insert_frayed frayed value) fun _ _ both =>
        Or.inr ⟨congrArg Answer.slot both.1, both.2⟩
    exact orTorn_bind stored fun _ _ both => Or.inr ⟨congrArg Except.ok both.1, both.2⟩
  | remove id =>
    obtain ⟨same, after⟩ := release_frayed frayed id
    exact Or.inr ⟨congrArg (Except.map fun value => Answer.value (some value)) same, after⟩
  | get id => exact Or.inr ⟨congrArg (Except.ok ∘ Answer.value) (congrFun frayed.held id), frayed⟩
  | set id value =>
    exact Or.inr ⟨congrArg (Except.ok ∘ Answer.value) (congrFun frayed.held id),
      set_frayed frayed id value⟩
  | count => exact Or.inr ⟨congrArg (Except.ok ∘ Answer.count) frayed.len, frayed⟩
  | clear => exact Or.inr ⟨rfl, clear_frayed a b⟩
  | copy => exact Or.inr ⟨rfl, copy_frayed frayed⟩

theorem runAll_frayed (ops : List (Op α)) (frayed : Frayed a b) :
    OrTorn (fun expected actual => actual.1 = expected.1 ∧ Frayed expected.2 actual.2)
      (runAll Op.attempt ops a) (runAll Op.attempt ops b) := by
  induction ops generalizing a b with
  | nil => exact Or.inr ⟨rfl, frayed⟩
  | cons op ops ih =>
    apply orTorn_bind (op_frayed op frayed)
    rintro s t ⟨first, after⟩
    apply orTorn_bind (ih after)
    rintro others answers ⟨rest, final⟩
    exact Or.inr ⟨congrArg₂ List.cons first rest, final⟩

theorem reached_frayed {ops : List (Op α)} {answers : List (Except Fault (Answer α))}
    {next : Arena α} (frayed : Frayed a a) (done : runAll Op.attempt ops a = .ok (answers, next)) :
    Frayed next next := by
  have alike := runAll_frayed ops frayed
  rw [done] at alike
  rcases alike with torn | ⟨-, after⟩
  · cases torn
  · exact after

theorem insertions_use_line (values : List α) {line : List Nat} {last : Option Nat}
    (threaded : a.Threaded line last) (fill : values.length = line.length) :
    ∃ full, runAll Op.attempt (values.map .insert) a =
      .ok (line.map (Except.ok ∘ Answer.slot), full) ∧ full.Threaded [] last := by
  induction values generalizing a line with
  | nil =>
    obtain rfl := List.length_eq_zero_iff.mp fill.symm
    exact ⟨a, rfl, threaded⟩
  | cons value values ih =>
    cases line with
    | nil => cases fill
    | cons id rest =>
      obtain ⟨next, done, listed, -⟩ := insert_next threaded value
      obtain ⟨full, others, ended⟩ := ih listed (Nat.succ.inj fill)
      have first : (Op.insert value).attempt a = .ok (.ok (.slot id), next) := by
        simp [Op.attempt, Op.run, done]
      refine ⟨full, ?_, ended⟩
      rw [List.map_cons, runAll, first, ok_bind]
      simp only [others, ok_bind, pure_eq_ok, List.map_cons, Function.comp_apply]

theorem fresh_of_threaded {line : List Nat} {last : Option Nat} (threaded : a.Threaded line last)
    {value : α} {id : Nat} {next : Arena α} (done : a.insert value = .ok (id, next)) :
    a.get? id = none := by
  cases line with
  | nil =>
    cases last with
    | some other =>
      rw [insert_loose threaded] at done
      cases done
    | none =>
      obtain ⟨stored, -, vacant, -⟩ := insert_beyond threaded value
      rw [stored] at done
      split at done
      · cases done
        exact vacant
      · cases done
  | cons first rest =>
    obtain ⟨_, stored, -, vacant, -⟩ := insert_next threaded value
    rw [stored] at done
    cases done
    exact vacant

end Runs

theorem release_frays {a : Arena α} (frayed : Frayed a a) {id : Nat} (unused : a.get? id = none) :
    Frayed a (a.release id).2 := by
  obtain ⟨line, last, -, -, threaded, -⟩ := frayed.line
  rw [release_unused unused]
  refine ⟨relink_get? unused, rfl, Array.size_setIfInBounds, line, last, _, _, threaded,
    relink_threaded threaded unused, upTo_prefix_self id line, fun closed => ?_⟩
  have fresh := not_mem_of_closed threaded closed
  rw [if_neg fresh] at closed
  exact ⟨upTo_eq_self fresh, closed⟩

structure Refused (a : Arena α) (id : Nat) : Prop where
  answer : (a.release id).1 =
    .error (if id < a.slots.size then .doubleFree id else .outOfBounds a.slots.size id)
  held : (a.release id).2.get? = a.get?
  len : (a.release id).2.len = a.len
  free : (a.release id).2.free = a.free
  unknown : a.slots.size ≤ id → (a.release id).2 = a
  later : ∀ ops, OrTorn (fun expected actual => actual.1 = expected.1)
    (runAll Op.attempt ops a) (runAll Op.attempt ops (a.release id).2)
  fresh : ∀ ops answers next value new after,
    runAll Op.attempt ops (a.release id).2 = .ok (answers, next) →
      next.insert value = .ok (new, after) → next.get? new = none
  off : ∀ line last, a.Threaded line last → id ∉ line → ∀ ops,
    Matching (fun expected actual => actual.1 = expected.1)
      (runAll Op.attempt ops a) (runAll Op.attempt ops (a.release id).2)
  /-- Otherwise the line now ends with the slot, and when it is used up there is no more insertion. -/
  short : ∀ front back last, a.Threaded (front ++ id :: back) last →
    ∀ values : List α, values.length = front.length + 1 →
      ∃ full, runAll Op.attempt (values.map .insert) (a.release id).2 =
        .ok ((front ++ [id]).map (Except.ok ∘ Answer.slot), full) ∧
          ∀ value, full.insert value = .error .usedFreeSlot

theorem alike_of_off_line {a : Arena α} {id : Nat} (unused : a.get? id = none) {line : List Nat}
    {last : Option Nat} (threaded : a.Threaded line last) (off : id ∉ line) (ops : List (Op α)) :
    Matching (fun expected actual => actual.1 = expected.1)
      (runAll Op.attempt ops a) (runAll Op.attempt ops (a.release id).2) := by
  have cut := relink_threaded threaded unused
  rw [upTo_eq_self off, if_neg off] at cut
  have view := relink_get? unused
  have slots : (a.relink id).slots.size = a.slots.size := Array.size_setIfInBounds
  rw [release_unused unused]
  -- each of the two is the other with no link lost
  have there : Frayed a (a.relink id) := ⟨view, rfl, slots, line, last, line, last, threaded, cut,
    List.prefix_rfl, fun closed => ⟨rfl, closed⟩⟩
  have back : Frayed (a.relink id) a := ⟨view.symm, rfl, slots.symm, line, last, line, last, cut,
    threaded, List.prefix_rfl, fun closed => ⟨rfl, closed⟩⟩
  rcases runAll_frayed ops there with torn | alike
  · rcases runAll_frayed ops back with same | alike
    · rw [torn, same]
      rfl
    · rw [torn] at alike ⊢
      cases ended : runAll Op.attempt ops a with
      | ok result =>
        rw [ended] at alike
        exact alike.elim
      | error fault =>
        rw [ended] at alike
        exact alike.symm
  · exact matching_imp alike fun _ _ both => both.1

theorem short_of_relinked {a : Arena α} {id : Nat} (unused : a.get? id = none)
    {front back : List Nat} {last : Option Nat} (threaded : a.Threaded (front ++ id :: back) last)
    {values : List α} (fill : values.length = front.length + 1) :
    ∃ full, runAll Op.attempt (values.map .insert) (a.release id).2 =
      .ok ((front ++ [id]).map (Except.ok ∘ Answer.slot), full) ∧
        ∀ value, full.insert value = .error .usedFreeSlot := by
  obtain ⟨-, -, apart⟩ := List.nodup_append.mp threaded.once
  have fresh : id ∉ front := fun member => apart id member id List.mem_cons_self rfl
  have head : ∃ first, a.free = some first := by
    cases front with
    | nil => exact ⟨id, threaded.linked.1⟩
    | cons first rest => exact ⟨first, threaded.linked.1⟩
  obtain ⟨first, head⟩ := head
  have cut := relink_threaded threaded unused
  rw [upTo_append fresh, if_pos (by simp)] at cut
  obtain ⟨full, done, ended⟩ := insertions_use_line values cut (by simpa using fill)
  rw [release_unused unused]
  rw [head] at ended
  exact ⟨full, done, insert_loose ended⟩

/-- After any operations and refusals, of any number that is not in use. -/
theorem refused_removals (capacity : Nat) (ops : List (Op α))
    (answers : List (Except Fault (Answer α))) (a : Arena α)
    (reached : runAll Op.attempt ops (withCapacity capacity) = .ok (answers, a))
    (id : Nat) (unused : a.get? id = none) : a.Refused id := by
  have frayed := reached_frayed (frayed_self (new_threaded capacity)) reached
  have lost := release_frays frayed unused
  refine ⟨?_, lost.held, lost.len, ?_, ?_, ?_, ?_, ?_, ?_⟩
  · rw [release_unused unused]
  · rw [release_unused unused]
    rfl
  · intro beyond
    rw [release_unused unused, relink_of_size_le beyond]
  · intro ops
    exact (runAll_frayed ops lost).imp_right fun alike => matching_imp alike fun _ _ both => both.1
  · intro ops answers next value new after done stored
    obtain ⟨_, _, -, -, standing, -⟩ := (reached_frayed (frayed_right lost) done).line
    exact fresh_of_threaded standing stored
  · intro line last threaded off ops
    exact alike_of_off_line unused threaded off ops
  · intro front back last threaded values fill
    exact short_of_relinked unused threaded fill

theorem refused_removals_again :
    (⟨#[.vacant none, .occupied 11], some 0, 1, 4⟩ : Arena Nat).Refused 0 :=
  refused_removals 0 [.insert 10, .insert 11, .remove 0] _ _ rfl 0 rfl

/-- Of two insertions after a slot was released twice, the second comes to the slot of the first. -/
theorem refusals_noticed : ¬ ∀ (ops later : List (Op Nat)) (answers : _) (a : Arena Nat) (id : Nat),
    runAll Op.attempt ops empty = .ok (answers, a) → a.get? id = none →
      (runAll Op.attempt later (a.release id).2).map (·.1) =
        (runAll Op.attempt later a).map (·.1) := by
  intro unnoticed
  have same := unnoticed [.insert 10, .remove 0] [.insert 11, .insert 12] _ _ 0 rfl rfl
  revert same
  decide

end MemIndex.Arena
