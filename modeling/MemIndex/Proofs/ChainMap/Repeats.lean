import MemIndex.Proofs.ChainMap.Blocks
import MemIndex.Proofs.ChainMap.Passes
import MemIndex.Proofs.ChainMap.Readings
import MemIndex.Proofs.ChainMap.Reports

/- A pass repeats itself only when a table begins to shrink under it. Otherwise every cursor is the
   start of a block of the smaller table of the moment, so a call reads nothing that lies before its
   cursor, and what was read is never met again. -/
namespace MemIndex.ChainMap

open Cursor

open scoped List

variable {K V : Type}

/-- No shrinking resize begins, and no entries are dropped. A resize that is running may end. -/
def Mark.Widens : Mark → Prop
  | .event (.started _ old new) => old ≤ new
  | .emptied => False
  | _ => True

namespace Plain

variable {p q : Plain K V} {marks : List Mark}

theorem smallest_startResize
    (widens : ∀ mark ∈ p.startResize.2.map Mark.event, mark.Widens) :
    p.smallest ≤ p.startResize.1.smallest := by
  rcases startResize_cases p with idle | ⟨stable, -, begun⟩
  · rw [idle]
  · rw [begun] at widens ⊢
    have grows : p.active.length ≤ p.config.fittingBuckets p.active.flatten.length :=
      widens _ List.mem_cons_self
    simp only [smallest, stable, List.length_replicate]
    exact Nat.le_min.mpr ⟨Nat.le_refl _, grows⟩

theorem smallest_relocate (steps : Nat) : p.smallest ≤ (p.relocate steps).1.smallest := by
  rcases relocate_cases p steps with ⟨-, idle⟩ | ⟨cursor, target, moving, ⟨-, moved⟩ | ⟨-, moved⟩⟩
  · rw [idle]
  · rw [moved]
    simp only [smallest, moving, shifted, Rows.length_shifts, Rows.length_shifts_target]
    exact Nat.le_refl _
  · rw [moved]
    simp only [smallest, moving, shifted, Rows.length_shifts_target]
    exact Nat.min_le_right _ _

theorem smallest_put (key : K) (value : V) : (p.put key value).smallest = p.smallest := by
  cases moving : p.moving with
  | none => simp only [smallest, put, moving, Rows.length_put]
  | some state => simp only [smallest, put, moving, Rows.length_put]

variable [BEq K]

theorem smallest_whereFound (key : K) {change : Rows (K × V) → Rows (K × V)}
    (length : ∀ rows, (change rows).length = rows.length) :
    (p.whereFound key change).smallest = p.smallest := by
  unfold whereFound
  split
  · cases moving : p.moving with
    | none => simp only [smallest, Option.map_none, moving]
    | some state => simp only [smallest, Option.map_some, moving, length]
  · cases moving : p.moving with
    | none => simp only [smallest, moving, length]
    | some state => simp only [smallest, moving, length]

theorem moves_smallest (moves : Moves p marks q) (widens : ∀ mark ∈ marks, mark.Widens) :
    p.smallest ≤ q.smallest := by
  induction moves with
  | still p => exact Nat.le_refl _
  | start p => exact smallest_startResize widens
  | relocate p steps => exact smallest_relocate steps
  | put p key value => exact (smallest_put key value).ge
  | replace p key value =>
    exact (smallest_whereFound key fun rows => Rows.length_revise _ _ _).ge
  | discard p found => exact (smallest_whereFound _ fun rows => Rows.length_discard _ _).ge
  | empty p valid => exact (widens .emptied List.mem_cons_self).elim
  | trans one other first second =>
    obtain ⟨before, after⟩ := List.forall_mem_append.mp widens
    exact (first before).trans (second after)

end Plain

def Aligned (buckets : Nat) (cursor : UInt64) : Prop :=
  ∃ k, 2 ^ k ≤ buckets ∧ width k ∣ position cursor

theorem aligned_later {buckets more : Nat} (le : buckets ≤ more) {cursor : UInt64}
    (aligned : Aligned buckets cursor) : Aligned more cursor := by
  obtain ⟨k, few, divides⟩ := aligned
  exact ⟨k, few.trans le, divides⟩

variable [BEq K]

def Op.drops : Op K V → List Mark
  | .clear | .ofList _ => [.emptied]
  | _ => []

structure Round (K V : Type) where
  map : ChainMap K V
  cursor : UInt64
  read : List (K × V)
  told : List Mark

def Round.start (map : ChainMap K V) : Except Fault (Round K V) := do
  let (cursor, batch) ← map.scan 0
  return ⟨map, cursor, batch, []⟩

def Round.turn (round : Round K V) : Turn K V → Except Fault (Round K V)
  | .call =>
    if round.cursor = 0 then return round
    else do
      let (cursor, batch) ← round.map.scan round.cursor
      return { round with cursor, read := round.read ++ batch }
  | .operate op => do
    let ((_, events), map) ← op.report round.map
    return { round with map, told := round.told ++ (op.drops ++ events.map .event) }

def Round.run (map : ChainMap K V) (turns : List (Turn K V)) : Except Fault (Round K V) := do
  turns.foldlM Round.turn (← Round.start map)

section Marks

variable {map next : ChainMap K V} {marks : List Mark}

theorem extendMarks_keep {pairs : List (K × V)}
    (marked : map.extendMarks pairs = .ok (marks, next)) : .emptied ∉ marks := by
  induction pairs generalizing map marks with
  | nil =>
    cases marked
    simp
  | cons pair rest ih =>
    rw [extendMarks] at marked
    obtain ⟨one, -, marked⟩ := bind_eq_ok.mp marked
    obtain ⟨⟨others, last⟩, later, marked⟩ := bind_eq_ok.mp marked
    cases marked
    rw [List.mem_append, not_or]
    refine ⟨?_, ih later⟩
    unfold insertMarks
    split <;> simp

theorem dropped_of_emptied {op : Op K V} (marked : op.marks map = .ok (marks, next))
    (emptied : .emptied ∈ marks) : .emptied ∈ op.drops := by
  cases op with
  | clear | ofList pairs => exact List.mem_singleton_self _
  | extend pairs => exact absurd emptied (extendMarks_keep marked)
  | insert key value =>
    obtain ⟨outcome, -, marked⟩ := bind_eq_ok.mp marked
    cases marked
    unfold insertMarks at emptied
    split at emptied <;> simp at emptied
  | remove key | erase key =>
    obtain ⟨upkept, -, marked⟩ := bind_eq_ok.mp marked
    obtain ⟨home, -, marked⟩ := bind_eq_ok.mp marked
    obtain ⟨outcome, -, marked⟩ := bind_eq_ok.mp marked
    cases marked
    simp at emptied
  | _ =>
    obtain ⟨reported, -, marked⟩ := bind_eq_ok.mp marked
    cases marked
    simp at emptied

theorem widens_of_reported {op : Op K V} (marked : op.marks map = .ok (marks, next))
    (widens : ∀ mark ∈ op.drops ++ (marks.filterMap Mark.event?).map .event, mark.Widens) :
    ∀ mark ∈ marks, mark.Widens := by
  intro mark member
  cases mark with
  | event event =>
    apply widens
    exact List.mem_append_right _
      (List.mem_map_of_mem (List.mem_filterMap.mpr ⟨_, member, rfl⟩))
  | added => trivial
  | removed home => trivial
  | emptied => exact widens _ (List.mem_append_left _ (dropped_of_emptied marked member))

end Marks

section Rounds

variable [EquivBEq K] {hash : K → UInt64} {map : ChainMap K V} {dict : Dictionary K V}

/-- From the start of a block on, a call reads what lies between its cursor and the next one, and
nothing twice. -/
theorem call_once (mirrors : Mirrors hash map dict) {cursor : UInt64}
    (aligned : Aligned map.smallest cursor) {next : UInt64} {batch : List (K × V)}
    (called : map.scan cursor = .ok (next, batch)) :
    Distinct batch ∧ (∀ pair ∈ batch, position cursor ≤ position (hash pair.1)) ∧
      (next = 0 ∨ Aligned map.smallest next ∧ position cursor ≤ position next ∧
        ∀ pair ∈ batch, position (hash pair.1) < position next) := by
  obtain ⟨p, depicts, carries⟩ := mirrors
  obtain ⟨j, size⟩ := smallest_pow depicts.tidy
  have scanned := scan_refines depicts.represents depicts.tidy cursor
  rw [called] at scanned
  have result := Except.ok.inj scanned
  obtain ⟨place, whole⟩ := scan_block depicts.tidy size cursor
  rw [← result] at place whole
  rw [smallest_refines depicts.represents, size] at aligned ⊢
  obtain ⟨k, few, divides⟩ := aligned
  have le : k ≤ j := (Nat.pow_le_pow_iff_right (by decide)).mp few
  have onBlock : width j ∣ position cursor := Nat.dvd_trans (width_dvd_width le) divides
  have perm := whole onBlock
  have start := Nat.div_mul_cancel onBlock
  have block : ∀ pair ∈ batch,
      position (hash pair.1) / width j = position cursor / width j := by
    intro pair member
    have found := (List.mem_filter.mp (perm.mem_iff.mp member)).2
    rw [carries.hash] at found
    exact of_decide_eq_true found
  have before : ∀ pair ∈ batch,
      position (hash pair.1) < (position cursor / width j + 1) * width j := by
    intro pair member
    rw [← block pair member]
    exact lt_block_end (hash pair.1) j
  refine ⟨(distinct_perm perm).mpr (carries.sound.distinct.filter _), ?_, ?_⟩
  · intro pair member
    rw [← start, ← block pair member]
    exact Nat.div_mul_le_self _ _
  · have cases := advance_cases cursor j
    rw [← (place : next = _)] at cases
    rcases cases with ⟨-, last⟩ | ⟨-, further⟩
    · exact Or.inl last
    · rw [further]
      refine Or.inr ⟨⟨j, Nat.le_refl _, ?_⟩, ?_, before⟩
      · rw [further]
        exact Nat.dvd_mul_left _ _
      · rw [Nat.add_mul, start]
        exact Nat.le_add_right _ _

variable (respects : Respects hash)

include respects

theorem report_widens (mirrors : Mirrors hash map dict) {op : Op K V} {answer : Answer K V}
    {events : List Event} {next : ChainMap K V}
    (reported : op.report map = .ok ((answer, events), next)) :
    (∃ after, Mirrors hash next after) ∧
      ((∀ mark ∈ op.drops ++ events.map .event, mark.Widens) → map.smallest ≤ next.smallest) := by
  have ran : op.run map = .ok (answer, next) := by rw [run_of_report, reported]; rfl
  refine ⟨op_mirrors respects mirrors ran, fun widens => ?_⟩
  obtain ⟨p, depicts, -⟩ := mirrors
  have told := op_told depicts op
  rw [reported] at told
  cases marked : op.marks map with
  | error fault =>
    rw [marked] at told
    exact told.elim
  | ok result =>
    obtain ⟨marks, last⟩ := result
    rw [marked] at told
    obtain ⟨same, rfl, q, after, moves⟩ := told
    cases (same : last = next)
    rw [smallest_refines depicts.represents, smallest_refines after.represents]
    exact Plain.moves_smallest moves (widens_of_reported marked widens)

structure Round.Once (hash : K → UInt64) (round : Round K V) : Prop where
  mirrors : ∃ dict, Mirrors hash round.map dict
  once : (∀ mark ∈ round.told, mark.Widens) → Distinct round.read ∧
    (round.cursor = 0 ∨ Aligned round.map.smallest round.cursor ∧
      ∀ pair ∈ round.read, position (hash pair.1) < position round.cursor)

theorem start_once (mirrors : Mirrors hash map dict) :
    ∃ round, Round.start map = .ok round ∧ round.Once hash ∧ round.map = map := by
  obtain ⟨next, batch, called, -⟩ := call_reads respects mirrors 0
  have aligned : Aligned map.smallest 0 := by
    obtain ⟨p, depicts, -⟩ := mirrors
    obtain ⟨j, size⟩ := smallest_pow depicts.tidy
    rw [smallest_refines depicts.represents, size]
    exact ⟨j, Nat.le_refl _, by rw [position_zero]; exact Nat.dvd_zero _⟩
  obtain ⟨distinct, -, ends⟩ := call_once mirrors aligned called
  refine ⟨⟨map, next, batch, []⟩, by simp [Round.start, called],
    ⟨⟨dict, mirrors⟩, fun _ => ⟨distinct, ?_⟩⟩, rfl⟩
  exact ends.imp id fun ⟨further, _, before⟩ => ⟨further, before⟩

theorem turn_once {total : Nat} (turn : Turn K V) (rest : List (Turn K V)) (round : Round K V)
    (good : round.Once hash ∧ Within total (turn :: rest) round.map) :
    Safe (Scarce total) (fun next => next.Once hash ∧ Within total rest next.map)
      (round.turn turn) := by
  obtain ⟨⟨⟨dict, mirrors⟩, reading⟩, within⟩ := good
  cases turn with
  | call =>
    by_cases closed : round.cursor = 0
    · have turned : round.turn .call = .ok round := if_pos closed
      exact safe_ok turned ⟨⟨⟨dict, mirrors⟩, reading⟩, within_call within⟩
    · obtain ⟨next, batch, called, -⟩ := call_reads respects mirrors round.cursor
      have turned : round.turn .call =
          .ok { round with cursor := next, read := round.read ++ batch } := by
        simp [Round.turn, closed, called]
      refine safe_ok turned ⟨⟨⟨dict, mirrors⟩, fun widens => ?_⟩, within_call within⟩
      obtain ⟨distinct, ended | ⟨aligned, before⟩⟩ := reading widens
      · exact absurd ended closed
      obtain ⟨others, ahead, ends⟩ := call_once mirrors aligned called
      -- A key that was read before has its place before the cursor, the new ones have theirs after.
      refine ⟨List.pairwise_append.mpr ⟨distinct, others, fun x earlier y later => ?_⟩, ?_⟩
      · rw [Bool.eq_false_iff]
        intro same
        have first := before x earlier
        rw [respects _ _ same] at first
        exact absurd (ahead y later) (Nat.not_le_of_lt first)
      · refine ends.imp id fun ⟨further, onward, newly⟩ => ⟨further, fun pair member => ?_⟩
        rcases List.mem_append.mp member with earlier | later
        · exact Nat.lt_of_lt_of_le (before pair earlier) onward
        · exact newly pair later
  | operate op =>
    have safe := operate_safe within
    rw [run_of_report] at safe
    apply safe_bind (safe_done (safe_of_bind safe)) id
    rintro ⟨⟨answer, events⟩, next⟩ ⟨reported, left⟩
    obtain ⟨kept, grows⟩ := report_widens respects mirrors reported
    refine ⟨⟨kept, fun widens => ?_⟩, left⟩
    obtain ⟨told, newly⟩ := List.forall_mem_append.mp widens
    obtain ⟨distinct, reading⟩ := reading told
    refine ⟨distinct, reading.imp id fun ⟨aligned, before⟩ => ?_⟩
    exact ⟨aligned_later (grows newly) aligned, before⟩

end Rounds

section Frozen

variable {map : ChainMap K V} {p : Plain K V} {j n : Nat}

structure Round.Reads (p : Plain K V) (j calls : Nat) (round : Round K V) : Prop where
  depicts : Depicts round.map p
  place : calls < cursors j ∧ position round.cursor = calls * width j ∨
    cursors j ≤ calls ∧ round.cursor = 0
  read : round.read ~ p.firstBlocks j calls

omit [BEq K] in
theorem start_reads (depicts : Depicts map p) (least : p.smallest = 2 ^ j) :
    ∃ round, Round.start map = .ok round ∧ round.Reads p j 1 := by
  have scanned := scan_refines depicts.represents depicts.tidy 0
  have place : position 0 = 0 * width j := by rw [position_zero, Nat.zero_mul]
  have nothing : [] ~ p.firstBlocks j 0 := by simp [Plain.firstBlocks]
  refine ⟨⟨map, (p.scan 0).1, (p.scan 0).2, []⟩, by rw [Round.start, scanned]; rfl, depicts, ?_,
    next_read depicts.tidy least place nothing⟩
  rw [(scan_block depicts.tidy least 0).1]
  exact next_place place

theorem call_reads_on {round : Round K V} (reads : round.Reads p j n) (some : 0 < n)
    (least : p.smallest = 2 ^ j) :
    ∃ next, round.turn .call = .ok next ∧ next.Reads p j (n + 1) := by
  obtain ⟨depicts, going | ⟨enough, ended⟩, read⟩ := reads
  · obtain ⟨inside, place⟩ := going
    have notOver : round.cursor ≠ 0 := by
      intro ended
      rw [ended, position_zero] at place
      exact absurd place.symm (Nat.mul_pos some (width_positive j)).ne'
    have scanned := scan_refines depicts.represents depicts.tidy round.cursor
    refine ⟨⟨round.map, (p.scan round.cursor).1, round.read ++ (p.scan round.cursor).2,
      round.told⟩, ?_, depicts, ?_, next_read depicts.tidy least place read⟩
    · rw [Round.turn, if_neg notOver, scanned]
      rfl
    · rw [(scan_block depicts.tidy least round.cursor).1]
      exact next_place place
  · refine ⟨round, if_pos ended, depicts, Or.inr ⟨Nat.le_succ_of_le enough, ended⟩, ?_⟩
    rw [firstBlocks_all enough] at read
    rw [firstBlocks_all (Nat.le_succ_of_le enough)]
    exact read

theorem calls_read {round : Round K V} (reads : round.Reads p j n) (some : 0 < n)
    (least : p.smallest = 2 ^ j) (calls : Nat) :
    ∃ last, (List.replicate calls .call).foldlM Round.turn round = .ok last ∧
      last.Reads p j (n + calls) := by
  induction calls generalizing round n with
  | zero => exact ⟨round, rfl, reads⟩
  | succ calls ih =>
    obtain ⟨next, done, after⟩ := call_reads_on reads some least
    obtain ⟨last, rest, ended⟩ := ih after (Nat.succ_pos n)
    rw [List.replicate_succ, List.foldlM_cons, done]
    rw [Nat.add_right_comm, Nat.add_assoc] at ended
    exact ⟨last, rest, ended⟩

theorem frozen_calls (depicts : Depicts map p) (calls : Nat) :
    ∃ round, Round.run map (List.replicate calls .call) = .ok round ∧
      (round.cursor = 0 ↔ min map.smallest (2 ^ 64) ≤ calls + 1) ∧
      (round.cursor = 0 → round.read ~ p.entries) := by
  obtain ⟨j, least⟩ := smallest_pow depicts.tidy
  obtain ⟨first, started, reads⟩ := start_reads depicts least
  obtain ⟨last, ran, ended⟩ := calls_read reads Nat.one_pos least calls
  have closed : last.cursor = 0 ↔ cursors j ≤ 1 + calls := by
    rcases ended.place with ⟨inside, place⟩ | ⟨enough, zero⟩
    · have ahead : last.cursor ≠ 0 := by
        intro zero
        rw [zero, position_zero] at place
        exact absurd place.symm (Nat.mul_pos (by omega) (width_positive j)).ne'
      exact iff_of_false ahead (Nat.not_le_of_lt inside)
    · exact iff_of_true zero enough
  refine ⟨last, ?_, ?_, fun zero => ?_⟩
  · rw [Round.run, started]
    exact ran
  · rw [smallest_refines depicts.represents, least, Nat.add_comm]
    exact closed
  · rw [← firstBlocks_all (closed.mp zero)]
    exact ended.read

end Frozen

variable [EquivBEq K] {hash : K → UInt64}

/-- Whatever is done to a map during a pass, no key is reported twice, unless a resize that shrinks
it begins or it is emptied. A pass over a map that stays as it is, in the middle of a resize or not,
reports all entries, and takes a call for each bucket of the smaller table, of which there can be no
more than there are cursors. -/
theorem pass_repeats_no_key (respects : Respects hash) {map : ChainMap K V}
    (reachable : Reachable hash map) :
    (∀ turns,
        (∃ round, Round.run map turns = .ok round ∧
          ((∀ mark ∈ round.told, mark.Widens) → Distinct round.read)) ∨
        (Round.run map turns = .error .exhausted ∧
          Arena.maxSlots < map.len + (turns.map Turn.insertions).sum)) ∧
      ∃ all, map.listing = .ok all ∧ Distinct all ∧ ∀ calls, ∃ round,
        Round.run map (List.replicate calls .call) = .ok round ∧
          (round.cursor = 0 ↔ min map.smallest (2 ^ 64) ≤ calls + 1) ∧
          (round.cursor = 0 → round.read.Perm all) := by
  obtain ⟨dict, mirrors⟩ := reachable_mirrors respects reachable
  obtain ⟨first, started, once, same⟩ := start_once respects mirrors
  obtain ⟨p, depicts, carries⟩ := mirrors
  constructor
  · intro turns
    have within := within_all depicts turns
    have safe := @foldlM_safe _ _ Round.turn _
      (fun rest round => round.Once hash ∧ Within _ rest round.map) (turn_once respects) turns
      first ⟨once, by rwa [same]⟩
    unfold Round.run
    rw [started, ok_bind]
    rcases safe_cases safe with ⟨last, done, after, -⟩ | failed
    · exact Or.inl ⟨last, done, fun widens => (after.once widens).1⟩
    · exact Or.inr failed
  · exact ⟨p.entries, listing_refines depicts.represents, carries.sound.distinct,
      frozen_calls depicts⟩

theorem pass_repeats_no_key_words : ∃ map : ChainMap UInt64 Nat,
    Op.run (.extend [(1, 10), (2, 20), (3, 30), (4, 40), (5, 50)])
        (build { pace := .fixed 1 } id) = .ok (.done, map) ∧
      (∃ round, Round.run map growing = .ok round ∧ round.cursor = 0 ∧
        .event (.started 5 4 8) ∈ round.told ∧ .event (.finished 5 4 8) ∈ round.told ∧
        Distinct round.read) ∧
      ∃ next all, Op.run (.insert 6 60) map = .ok (.value none, next) ∧ next.isResizing = true ∧
        next.listing = .ok all ∧ Distinct all ∧
        ∃ round, Round.run next (List.replicate 3 .call) = .ok round ∧ round.cursor = 0 ∧
          round.read.Perm all := by
  have respects : Respects (id : UInt64 → UInt64) := fun a b same => by rw [eq_of_beq same]
  have start : Reachable id (build { pace := .fixed 1 } id : ChainMap UInt64 Nat) :=
    build_reachable Config.single_valid id
  have filled : ∃ map next : ChainMap UInt64 Nat,
      Op.run (.extend [(1, 10), (2, 20), (3, 30), (4, 40), (5, 50)])
          (build { pace := .fixed 1 } id) = .ok (.done, map) ∧
        Op.run (.insert 6 60) map = .ok (.value none, next) ∧ map.len = 5 ∧
        next.isResizing = true ∧ next.smallest = 4 ∧
        (Round.run map growing).map (fun round => (round.cursor, round.told)) =
          .ok (0, [.event (.started 5 4 8), .event (.stepped 0 1 1), .event (.stepped 1 2 2),
            .event (.stepped 2 3 1), .event (.stepped 3 4 1), .event (.finished 5 4 8)]) :=
    ⟨_, _, rfl, rfl, rfl, rfl, rfl, by decide +kernel⟩
  obtain ⟨map, next, ran, inserted, len, resizing, least, outline⟩ := filled
  have reachable := start.step ran
  obtain ⟨all, listed, distinct, frozen⟩ :=
    (pass_repeats_no_key respects (reachable.step inserted)).2
  obtain ⟨round, called, closed, whole⟩ := frozen 3
  have returned : round.cursor = 0 := closed.mpr (by rw [least]; decide)
  refine ⟨map, ran, ?_, next, all, inserted, resizing, listed, distinct, round, called, returned,
    whole returned⟩
  rcases (pass_repeats_no_key respects reachable).1 growing with ⟨round, done, once⟩ | ⟨-, short⟩
  · rw [done] at outline
    obtain ⟨returned, told⟩ : round.cursor = 0 ∧ round.told = [.event (.started 5 4 8),
        .event (.stepped 0 1 1), .event (.stepped 1 2 2), .event (.stepped 2 3 1),
        .event (.stepped 3 4 1), .event (.finished 5 4 8)] := by
      simpa [Except.map] using outline
    have widens : ∀ mark ∈ round.told, mark.Widens := by
      rw [told]
      simp [Mark.Widens]
    exact ⟨round, done, returned, by simp [told], by simp [told], once widens⟩
  · rw [len] at short
    exact absurd short (by decide)

end MemIndex.ChainMap
