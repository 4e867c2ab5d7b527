import MemIndex.Proofs.ChainMap.Blocks
import MemIndex.Proofs.ChainMap.Passes
import MemIndex.Proofs.ChainMap.Safety

/- Every call gets on, from any cursor whatever. It ends at the end of a block of the smaller table,
   so the blocks of the smallest size that occurs bound the calls of a pass. -/
namespace MemIndex.ChainMap

open Cursor

variable {K V : Type}

section Calls

def smaller (map : ChainMap K V) (target : Table) : Table :=
  if target.buckets < map.active.buckets then target else map.active

def larger (map : ChainMap K V) (target : Table) : Table :=
  if target.buckets < map.active.buckets then map.active else target

def spread (map : ChainMap K V) (target : Table) : Nat :=
  (map.larger target).buckets / (map.smaller target).buckets

/-- What a call does to its cursor. In reversed order the next one lies ahead, or the pass is over,
and it has no bit that the smaller table has no use for. The larger table is not read longer than
one bucket spreads over it. -/
structure Onward (map : ChainMap K V) (cursor next : UInt64) : Prop where
  ahead : next = 0 ∨ reverseBits cursor < reverseBits next
  masked : next &&& UInt64.ofNat (map.smallest - 1) = next
  swept : ∀ target, map.target? = some target → ∃ pairs,
    sweep map.store (map.larger target) (map.smaller target).wordMask (map.spread target) cursor =
      .ok (next, pairs)

variable {map : ChainMap K V} {p : Plain K V} {j : Nat}

theorem sweep_spread (depicts : Depicts map p) (least : p.smallest = 2 ^ j) {target : Table}
    (moving : map.target? = some target) (cursor : UInt64) : ∃ pairs,
      sweep map.store (map.larger target) (map.smaller target).wordMask (map.spread target)
        cursor = .ok (advance cursor (mask j), pairs) := by
  obtain ⟨⟨active, rows, laid, rfl⟩, tidy⟩ := depicts
  obtain ⟨k, size⟩ : ∃ k, active.length = 2 ^ k := by simpa [plainOf] using tidy.size
  have activeBuckets := Table.buckets_of_lays laid.activeLays
  have onTarget := laid.targetLays
  cases phase : map.phase with
  | stable => simp [target?, phase] at moving
  | resizing start table =>
    simp only [target?, phase, Option.some.injEq] at moving
    subst moving
    simp only [phase] at onTarget
    have inPlain : (plainOf map active rows).moving = some (start, rows.mapEach (·.2)) := by
      simp [plainOf, phase]
    obtain ⟨m, targetSize⟩ : ∃ m, rows.length = 2 ^ m := by
      simpa using (tidy.midway _ _ inPlain).size
    have targetBuckets := Table.buckets_of_lays onTarget.1
    have itsActive : (plainOf map active rows).active = active.mapEach (·.2) := rfl
    simp only [Plain.smallest, inPlain, itsActive, Rows.length_mapEach] at least
    by_cases less : rows.length < active.length
    · rw [Nat.min_eq_right (Nat.le_of_lt less)] at least
      have le := Rows.bits_le least size (Nat.le_of_lt less)
      have below : table.buckets < map.active.buckets := by rwa [targetBuckets, activeBuckets]
      rw [spread, larger, smaller, if_pos below, if_pos below, wordMask_of_lays onTarget.1 least,
        activeBuckets, targetBuckets, size, least]
      exact ⟨_, sweep_within laid.activeLays size (active_short laid) le cursor (Nat.le_refl _)⟩
    · rw [Nat.min_eq_left (Nat.le_of_not_lt less)] at least
      have le := Rows.bits_le least targetSize (Nat.le_of_not_lt less)
      have above : ¬ table.buckets < map.active.buckets := by rwa [targetBuckets, activeBuckets]
      rw [spread, larger, smaller, if_neg above, if_neg above,
        wordMask_of_lays laid.activeLays least, activeBuckets, targetBuckets, targetSize, least]
      exact ⟨_, sweep_within onTarget.1 targetSize (target_short laid) le cursor (Nat.le_refl _)⟩

theorem scan_advances (depicts : Depicts map p) (least : p.smallest = 2 ^ j) (cursor : UInt64) :
    ∃ batch, map.scan cursor = .ok (advance cursor (mask j), batch) := by
  refine ⟨(p.scan cursor).2, ?_⟩
  rw [scan_refines depicts.represents depicts.tidy, ← (scan_block depicts.tidy least cursor).1]

theorem scan_onward (depicts : Depicts map p) (cursor : UInt64) :
    ∃ next batch, map.scan cursor = .ok (next, batch) ∧ map.Onward cursor next := by
  obtain ⟨j, least⟩ := smallest_pow depicts.tidy
  obtain ⟨batch, called⟩ := scan_advances depicts least cursor
  refine ⟨_, batch, called, advance_ahead cursor j, ?_, ?_⟩
  · rw [smallest_refines depicts.represents, least]
    exact and_mask_of_aligned (width_dvd_advance cursor j)
  · intro target moving
    exact sweep_spread depicts least moving cursor

end Calls

section Loops

structure Loop (K V : Type) where
  map : ChainMap K V
  cursor : UInt64
  called : List (ChainMap K V)
  /-- Whether 0 has come back. Then there are no more calls. -/
  ended : Bool

def Turn.calls : Turn K V → Nat
  | .call => 1
  | .operate _ => 0

def Loop.reached (loop : Loop K V) : Nat := if loop.ended then 2 ^ 64 else position loop.cursor

/-- Counted in blocks of any table that the smaller one never exceeded, the loop is at least as far
as it has calls. Of those that are asked for in all, it has had as many as are not to come. -/
structure Loop.Paced (asked : Nat) (rest : List (Turn K V)) (loop : Loop K V) : Prop where
  done : loop.ended = true ∨ loop.called.length + (rest.map Turn.calls).sum = asked
  far : ∀ k, (∀ map ∈ loop.called, map.smallest ≤ 2 ^ k) →
    loop.called.length * width k ≤ loop.reached

theorem next_multiple {cursor : UInt64} {j k n : Nat} (le : j ≤ k)
    (far : n * width k ≤ position cursor) :
    (n + 1) * width k ≤ (position cursor / width j + 1) * width j := by
  obtain ⟨ratio, even⟩ := width_dvd_width le
  have less := Nat.lt_of_le_of_lt far (lt_block_end cursor j)
  rw [even, Nat.mul_comm (width k), ← Nat.mul_assoc] at less ⊢
  exact Nat.mul_le_mul_right _ (Nat.lt_of_mul_lt_mul_right less)

theorem paced_few {asked k : Nat} {loop : Loop K V} (paced : loop.Paced asked [])
    (small : ∀ map ∈ loop.called, map.smallest ≤ 2 ^ k) :
    loop.called.length ≤ 2 ^ k ∧ (2 ^ k ≤ asked → loop.ended = true) := by
  have far := paced.far k small
  have room : cursors k ≤ 2 ^ k := Nat.min_le_left _ _
  have whole := cursors_width k
  unfold Loop.reached at far
  cases ended : loop.ended with
  | true =>
    rw [if_pos ended, ← whole] at far
    exact ⟨(Nat.le_of_mul_le_mul_right far (width_positive k)).trans room, fun _ => rfl⟩
  | false =>
    rw [if_neg (by simp [ended])] at far
    have inside := Nat.lt_of_le_of_lt far (position_lt loop.cursor)
    rw [← whole] at inside
    have fewer := Nat.lt_of_mul_lt_mul_right inside
    have counted : loop.called.length = asked := paced.done.resolve_left (by simp [ended])
    exact ⟨by omega, fun _ => by omega⟩

variable [BEq K]

def Loop.turn (loop : Loop K V) : Turn K V → Except Fault (Loop K V)
  | .call =>
    if loop.ended then return loop
    else do
      let (cursor, _) ← loop.map.scan loop.cursor
      return { loop with cursor, called := loop.map :: loop.called, ended := cursor == 0 }
  | .operate op => do
    let (_, map) ← op.run loop.map
    return { loop with map }

def Loop.run (map : ChainMap K V) (cursor : UInt64) (turns : List (Turn K V)) :
    Except Fault (Loop K V) := turns.foldlM Loop.turn ⟨map, cursor, [], false⟩

theorem call_paced {loop : Loop K V} {asked : Nat} {rest : List (Turn K V)} {p : Plain K V}
    (depicts : Depicts loop.map p) (paced : loop.Paced asked (.call :: rest))
    (going : loop.ended = false) :
    ∃ next, loop.turn .call = .ok next ∧ next.map = loop.map ∧ next.Paced asked rest := by
  obtain ⟨done, far⟩ := paced
  obtain ⟨j, least⟩ := smallest_pow depicts.tidy
  obtain ⟨batch, called⟩ := scan_advances depicts least loop.cursor
  have buckets : loop.map.smallest = 2 ^ j := by
    rw [smallest_refines depicts.represents, least]
  let next : UInt64 := advance loop.cursor (mask j)
  refine ⟨⟨loop.map, next, loop.map :: loop.called, next == 0⟩, ?_, rfl, Or.inr ?_, ?_⟩
  · rw [Loop.turn, going, called]
    rfl
  · have counted := done.resolve_left (by simp [going])
    rw [List.map_cons, List.sum_cons, Turn.calls, ← Nat.add_assoc] at counted
    exact counted
  · intro k small
    have le : j ≤ k := by
      have fits := small loop.map List.mem_cons_self
      rw [buckets] at fits
      exact (Nat.pow_le_pow_iff_right (by decide)).mp fits
    have before := far k fun map member => small map (List.mem_cons_of_mem _ member)
    simp only [Loop.reached, going, Bool.false_eq_true, if_false] at before
    have further := next_multiple le before
    rw [List.length_cons, Loop.reached]
    rcases advance_cases loop.cursor j with ⟨last, ended⟩ | ⟨-, place⟩
    · rw [if_pos (beq_iff_eq.mpr ended), ← last]
      exact further
    · have notOver : next ≠ 0 := by
        intro ended
        change position next = _ at place
        rw [ended, position_zero] at place
        exact absurd (lt_block_end loop.cursor j) (by omega)
      rw [if_neg (by simpa using notOver), place]
      exact further

theorem turn_paced {asked total : Nat} (turn : Turn K V) (rest : List (Turn K V))
    (loop : Loop K V) (good : loop.Paced asked (turn :: rest) ∧ Within total (turn :: rest) loop.map) :
    Safe (Scarce total) (fun next => next.Paced asked rest ∧ Within total rest next.map)
      (loop.turn turn) := by
  obtain ⟨paced, within⟩ := good
  cases turn with
  | call =>
    have left := within_call within
    cases ended : loop.ended with
    | false =>
      obtain ⟨n, ⟨p, depicts, -⟩, -⟩ := within
      obtain ⟨next, turned, same, after⟩ := call_paced depicts paced ended
      exact safe_ok turned ⟨after, by rwa [same]⟩
    | true =>
      have turned : loop.turn .call = .ok loop := by rw [Loop.turn, ended]; rfl
      exact safe_ok turned ⟨⟨Or.inl ended, paced.far⟩, left⟩
  | operate op =>
    apply safe_bind (operate_safe within) id
    intro result left
    obtain ⟨done, far⟩ := paced
    rw [List.map_cons, List.sum_cons, Turn.calls, Nat.zero_add] at done
    exact ⟨⟨done, far⟩, left⟩

/-- From any cursor a call goes on, and a loop of calls comes to an end, whatever is done to the map
between them. As long as the smaller table has no more than 2^k buckets at the calls, 2^k
of them are enough. -/
theorem calls_go_on {hash : K → UInt64} {map : ChainMap K V} (reachable : Reachable hash map)
    (cursor : UInt64) :
    (∃ next batch, map.scan cursor = .ok (next, batch) ∧ map.Onward cursor next) ∧
      ∀ turns,
        (∃ loop, Loop.run map cursor turns = .ok loop ∧
          ∀ k, (∀ called ∈ loop.called, called.smallest ≤ 2 ^ k) →
            loop.called.length ≤ 2 ^ k ∧
              (2 ^ k ≤ (turns.map Turn.calls).sum → loop.ended = true)) ∨
        (Loop.run map cursor turns = .error .exhausted ∧
          Arena.maxSlots < map.len + (turns.map Turn.insertions).sum) := by
  obtain ⟨p, depicts, -⟩ := reachable_depicts reachable
  refine ⟨scan_onward depicts cursor, fun turns => ?_⟩
  have start : Loop.Paced (turns.map Turn.calls).sum turns ⟨map, cursor, [], false⟩ :=
    ⟨Or.inr (Nat.zero_add _), fun k _ => by simp⟩
  have safe := @foldlM_safe _ _ Loop.turn _
    (fun rest loop => Loop.Paced _ rest loop ∧ Within _ rest loop.map) turn_paced turns
    ⟨map, cursor, [], false⟩ ⟨start, within_all depicts turns⟩
  rcases safe_cases safe with ⟨last, done, paced, -⟩ | failed
  · exact Or.inl ⟨last, done, fun k small => paced_few paced small⟩
  · exact Or.inr failed

theorem calls_go_on_words : ∃ map : ChainMap UInt64 Nat,
    Op.run (.extend [(1, 10), (2, 20), (3, 30), (4, 40), (5, 50), (6, 60)]) (build {} id) =
        .ok (.done, map) ∧
      map.isResizing = true ∧
      (∃ next batch, map.scan 4294967298 = .ok (next, batch) ∧ map.Onward 4294967298 next) ∧
      ∃ loop, Loop.run map 4294967298
          ([.call, .operate (.get 1)] ++ List.replicate 7 .call) = .ok loop ∧
        loop.called.map smallest = [8, 8, 8, 8, 4] ∧ loop.ended = true := by
  have start : Reachable id (build {} id : ChainMap UInt64 Nat) :=
    build_reachable Config.default_valid id
  have grown : ∃ map : ChainMap UInt64 Nat,
      Op.run (.extend [(1, 10), (2, 20), (3, 30), (4, 40), (5, 50), (6, 60)]) (build {} id) =
          .ok (.done, map) ∧ map.isResizing = true ∧ map.len = 6 ∧
        (Loop.run map 4294967298 ([.call, .operate (.get 1)] ++ List.replicate 7 .call)).map
          (·.called.map smallest) = .ok [8, 8, 8, 8, 4] := ⟨_, rfl, rfl, rfl, by decide +kernel⟩
  obtain ⟨map, ran, resizing, len, outline⟩ := grown
  obtain ⟨onward, loops⟩ := calls_go_on (start.step ran) 4294967298
  rcases loops ([.call, .operate (.get 1)] ++ List.replicate 7 .call) with
    ⟨loop, done, few⟩ | ⟨-, short⟩
  · rw [done] at outline
    have sizes : loop.called.map smallest = [8, 8, 8, 8, 4] := by
      simpa [Except.map] using outline
    have small : ∀ called ∈ loop.called, called.smallest ≤ 2 ^ 3 := by
      intro called member
      have among := List.mem_map_of_mem (f := smallest) member
      rw [sizes] at among
      exact (by decide : ∀ size ∈ [8, 8, 8, 8, 4], size ≤ 2 ^ 3) _ among
    exact ⟨map, ran, resizing, onward, loop, done, sizes, (few 3 small).2 (by decide)⟩
  · rw [len] at short
    exact absurd short (by decide)

end Loops

end MemIndex.ChainMap
