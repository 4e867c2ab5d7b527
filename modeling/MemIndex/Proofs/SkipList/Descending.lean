import MemIndex.Proofs.SkipList.Towers

/- The way down from the head. A level is left in front of a tower of which the condition does not
   hold. That tower takes part in all lower levels too, so they do not lead past it, and the place
   where the way ends is the last stop of every level. This is so for any condition. -/
namespace MemIndex.SkipList

variable {K V : Type} {nodes : Arena (Node K V)} {row front : List Tower}
  {go : Stop → Except Fault Bool}

def Ended (towers : List Tower) : Prop := ∀ t ∈ towers, t.slot ≠ tail

def Asked (go : Stop → Except Fault Bool) (row : List Tower) : Prop :=
  ∀ pre t post, row = pre ++ t :: post → pre ≠ [] → ∃ answer, go ⟨t.slot, pre.length⟩ = .ok answer

/-- If the row goes on behind its front, it is with a tower of this level that the condition does
not hold of. -/
structure Fence (go : Stop → Except Fault Bool) (row front : List Tower) (level : Nat) : Prop where
  part : front <+: row
  halts : ∀ y post, row = front ++ y :: post →
    level < y.height ∧ go ⟨y.slot, front.length⟩ = .ok false

/-- A way from a tower on stops at `x`. On this level there are no towers between `x` and the next
fence, and the way has been inside the last one. -/
structure Slid (go : Stop → Except Fault Bool) (row front : List Tower) (level : Nat)
    (pre : List Tower) (t : Tower) (before : List Tower) (x : Tower) (after : List Tower) :
    Prop where
  tall : level < x.height
  short : Short level after
  fence : Fence go row (before ++ x :: after) level
  inside : before ++ x :: after <+: front
  onwards : pre ++ [t] <+: before ++ [x]
  went : before = pre ∨ go ⟨x.slot, before.length⟩ = .ok true

def stopOf (path : Array Stop) (level : Nat) : Stop := (path[level]?).getD start

def Stopped (path : Array Stop) (row : List Tower) (top : Nat) : Prop :=
  ∀ l, l ≤ top → ∃ stop, path[l]? = some stop ∧ StopsAt row l stop

theorem ended_of_names {order : List Nat} {towers : List Tower}
    (names : towers.map Tower.slot = head :: order) (distinct : (head :: tail :: order).Nodup) :
    Ended towers := by
  simp only [List.nodup_cons, List.mem_cons, not_or] at distinct
  intro t member same
  have inRow : t.slot ∈ head :: order := by
    rw [← names]
    exact List.mem_map_of_mem member
  rw [same] at inRow
  rcases List.mem_cons.mp inRow with atHead | inOrder
  · exact distinct.1.1 atHead.symm
  · exact distinct.2.1 inOrder

theorem fence_lower {level lower : Nat} (fence : Fence go row front level) (le : lower ≤ level) :
    Fence go row front lower :=
  ⟨fence.part, fun y post parts =>
    ⟨Nat.lt_of_le_of_lt le (fence.halts y post parts).1, (fence.halts y post parts).2⟩⟩

theorem fence_end (level : Nat) : Fence go row row level := by
  refine ⟨List.prefix_refl row, fun y post parts => ?_⟩
  have longer := congrArg List.length parts
  simp at longer

section Fences

variable {level : Nat} {pre near far post : List Tower} {t y : Tower}

theorem front_parts (inside : pre ++ [t] <+: front) (part : front <+: row)
    (place : row = pre ++ t :: post) : ∃ mid, front = pre ++ t :: mid ∧ mid <+: post := by
  obtain ⟨mid, rfl⟩ := inside
  refine ⟨mid, by simp, ?_⟩
  rw [place, List.append_assoc, List.prefix_append_right_inj] at part
  exact (List.cons_prefix_cons.mp part).2

theorem fence_reach (fence : Fence go row front level) (inside : pre ++ [t] <+: front)
    (place : row = pre ++ t :: (near ++ y :: far)) (short : Short level near) :
    pre ++ t :: near <+: front := by
  obtain ⟨mid, rfl, part⟩ := front_parts inside fence.part place
  rw [List.prefix_append_right_inj, List.cons_prefix_cons]
  refine ⟨rfl, ?_⟩
  obtain ⟨rest, whole⟩ := part
  rcases List.append_eq_append_iff.mp whole with ⟨between, rfl, behind⟩ | ⟨between, rfl, -⟩
  · cases between with
    | nil => simp
    | cons z between =>
      have low := (fence.halts z (between ++ y :: far) (by simp [place])).1
      have := short z (by simp)
      omega
  · simp

theorem fence_pass (fence : Fence go row front level) (reach : near <+: front)
    (further : row = near ++ y :: far) (held : go ⟨y.slot, near.length⟩ = .ok true) :
    near ++ [y] <+: front := by
  obtain ⟨rest, rfl⟩ := reach
  cases rest with
  | nil =>
    rw [List.append_nil] at fence
    have halted := (fence.halts y far further).2
    rw [held] at halted
    cases halted
  | cons z rest =>
    obtain ⟨more, joined⟩ := fence.part
    rw [further, List.append_assoc] at joined
    obtain ⟨rfl, -⟩ := List.cons.inj (List.append_cancel_left joined)
    simp

theorem last_of_onwards {before : List Tower} {x : Tower} (onwards : pre ++ [t] <+: before ++ [x])
    (same : before = pre) : x = t := by
  subst same
  have parts := (List.prefix_append_right_inj before).mp onwards
  exact (List.cons_prefix_cons.mp parts).1.symm

end Fences

section Sliding

variable (linked : Linked nodes row) (asked : Asked go row) (ended : Ended row)

include linked asked ended

theorem slide_ok {level fuel : Nat} {pre post : List Tower} {t : Tower}
    (place : row = pre ++ t :: post) (tall : level < t.height) (fence : Fence go row front level)
    (inside : pre ++ [t] <+: front) (enough : post.length < fuel) :
    ∃ before x after, slide nodes go level fuel ⟨t.slot, pre.length⟩ =
        .ok ⟨x.slot, before.length⟩ ∧ Slid go row front level pre t before x after := by
  induction fuel generalizing pre t post with
  | zero => omega
  | succ fuel ih =>
    unfold slide
    rw [linkAt_ok (linked pre t post place level tall)]
    simp only [ok_bind]
    rcases first_tall level post with short | ⟨near, y, far, rfl, high, short⟩
    · rw [if_pos (by rw [onward_of_short short])]
      obtain ⟨mid, whole, part⟩ := front_parts inside fence.part place
      rw [whole] at fence ⊢
      exact ⟨pre, t, mid, rfl, tall, fun z member => short z (part.subset member), fence,
        List.prefix_refl _, List.prefix_refl _, Or.inl rfl⟩
    · have notTail : ¬ y.slot = tail := ended y (by simp [place])
      have further : row = (pre ++ t :: near) ++ y :: far := by simp [place]
      have rank : (pre ++ t :: near).length = pre.length + (1 + near.length) := by
        rw [List.length_append, List.length_cons]
        omega
      have next : onward level (near ++ y :: far) = ⟨y.slot, 1 + near.length⟩ := by
        rw [onward_short short, onward_tall high]
      have reach := fence_reach fence inside place short
      obtain ⟨answer, answered⟩ := asked _ y far further (by simp)
      have found := answered
      rw [rank] at found
      rw [next]
      simp only [if_neg notTail, found, ok_bind]
      cases answer with
      | false =>
        refine ⟨pre, t, near, rfl, tall, short, ⟨⟨y :: far, further.symm⟩, ?_⟩, reach,
          List.prefix_refl _, Or.inl rfl⟩
        intro z rest parts
        rw [further] at parts
        obtain ⟨rfl, rfl⟩ := List.cons.inj (List.append_cancel_left parts)
        exact ⟨high, answered⟩
      | true =>
        rw [List.length_append, List.length_cons] at enough
        obtain ⟨before, x, after, slid, result⟩ :=
          ih further high (fence_pass fence reach further answered) (by omega)
        rw [rank] at slid
        refine ⟨before, x, after, slid, result.tall, result.short, result.fence, result.inside, ?_,
          Or.inr ?_⟩
        · exact List.IsPrefix.trans ⟨near ++ [y], by simp⟩ result.onwards
        · rcases result.went with same | held
          · rw [last_of_onwards result.onwards same, same]
            exact answered
          · exact held

theorem descend_ok {level : Nat} {pre post : List Tower} {t : Tower}
    (place : row = pre ++ t :: post) (tall : level < t.height) (fence : Fence go row front level)
    (inside : pre ++ [t] <+: front) (fits : row.length ≤ nodes.slots.size) :
    ∃ path before x after, descend nodes go level ⟨t.slot, pre.length⟩ = .ok path ∧
      path.size = level + 1 ∧ Stopped path (before ++ x :: after) level ∧
      Slid go row front 0 pre t before x after := by
  have enough : ∀ {p m : List Tower} {x : Tower}, row = p ++ x :: m →
      m.length < nodes.slots.size := by
    intro p m x parts
    rw [parts, List.length_append, List.length_cons] at fits
    omega
  induction level generalizing front pre t post with
  | zero =>
    obtain ⟨before, x, after, slid, result⟩ :=
      slide_ok linked asked ended place tall fence inside (enough place)
    refine ⟨#[⟨x.slot, before.length⟩], before, x, after, by simp [descend, slid], rfl, ?_, result⟩
    intro l low
    obtain rfl : l = 0 := by omega
    exact ⟨_, rfl, before, x, after, rfl, result.tall, result.short, rfl⟩
  | succ level ih =>
    obtain ⟨early, y, past, slid, upper⟩ :=
      slide_ok linked asked ended place tall fence inside (enough place)
    obtain ⟨rest, joined⟩ := upper.fence.part
    have further : row = early ++ y :: (past ++ rest) := by
      rw [← joined]
      simp
    obtain ⟨path, before, x, after, below, size, stopped, lower⟩ :=
      ih further (Nat.lt_of_succ_lt upper.tall) (fence_lower upper.fence (Nat.le_succ level))
        ⟨past, by simp⟩
    refine ⟨path.push ⟨y.slot, early.length⟩, before, x, after, by simp [descend, slid, below],
      by simp [size], ?_, lower.tall, lower.short, lower.fence, lower.inside.trans upper.inside,
      upper.onwards.trans lower.onwards, ?_⟩
    · intro l low
      by_cases top : l = level + 1
      · subst l
        -- What the lower levels reach is inside the fence of this one.
        obtain ⟨mid, whole⟩ : early ++ [y] <+: before ++ x :: after :=
          lower.onwards.trans ⟨after, by simp⟩
        rw [List.append_assoc, List.singleton_append] at whole
        have part := lower.inside
        rw [← whole] at part
        obtain ⟨-, within⟩ := List.cons_prefix_cons.mp ((List.prefix_append_right_inj early).mp part)
        refine ⟨⟨y.slot, early.length⟩, ?_, early, y, mid, whole.symm, upper.tall, ?_, rfl⟩
        · rw [← size]
          simp
        · exact fun z member => upper.short z (within.subset member)
      · obtain ⟨stop, found, stops⟩ := stopped l (by omega)
        refine ⟨stop, ?_, stops⟩
        have inPath : l < path.size := by omega
        rw [Array.getElem?_push, if_neg (by omega)]
        exact found
    · rcases lower.went with same | held
      · rw [last_of_onwards lower.onwards same, same]
        exact upper.went
      · exact Or.inr held

/-- From the first tower of the row, the way down ends at a tower of which the condition holds, if it
is not the first, in front of one of which it does not. The stops are those of the row so far. -/
theorem descend_ends {level : Nat} {first : Tower} {rest : List Tower} (whole : row = first :: rest)
    (tall : level < first.height) (used : ∀ t ∈ row, 0 < t.height)
    (fits : row.length ≤ nodes.slots.size) :
    ∃ before x back path, row = before ++ x :: back ∧
      descend nodes go level ⟨first.slot, 0⟩ = .ok path ∧ path.size = level + 1 ∧
      Stopped path (before ++ [x]) level ∧
      (before = [] ∨ go ⟨x.slot, before.length⟩ = .ok true) ∧
      ∀ y post, back = y :: post → go ⟨y.slot, before.length + 1⟩ = .ok false := by
  obtain ⟨path, before, x, after, walked, size, stopped, slid⟩ :=
    descend_ok linked asked ended (show row = [] ++ first :: rest from whole) tall (fence_end _)
      (show [] ++ [first] <+: row from ⟨rest, whole.symm⟩) fits
  obtain ⟨back, joined⟩ := slid.fence.part
  have ended : after = [] := by
    cases after with
    | nil => rfl
    | cons y after =>
      have low := slid.short y List.mem_cons_self
      have := used y (by rw [← joined]; simp)
      omega
  subst ended
  refine ⟨before, x, back, path, ?_, walked, size, stopped, slid.went, ?_⟩
  · rw [← joined]
    simp
  · rintro y post rfl
    have halted := (slid.fence.halts y post joined.symm).2
    rwa [List.length_append, List.length_singleton] at halted

end Sliding

end MemIndex.SkipList
