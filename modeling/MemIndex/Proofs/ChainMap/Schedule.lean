import MemIndex.Proofs.ChainMap.Accounts

/- How long a resize runs. Its pace and the two sizes say how many operations it takes; each of them
is one step, by the same number of buckets, and the last one ends it. -/
namespace MemIndex.ChainMap

namespace Pace

def factor (old new : Nat) : Nat := max old new / min old new

def step (pace : Pace) (old new : Nat) : Nat :=
  match pace with
  | .fixed buckets => buckets
  | .full => old
  | .auto => (old + factor old new - 1) / factor old new

def turns (pace : Pace) (old new : Nat) : Nat :=
  match pace with
  | .fixed buckets => (old + buckets - 1) / buckets
  | .full => 1
  | .auto => min old (factor old new)

theorem lt_ceil_iff {size step : Nat} (positive : 0 < step) (n : Nat) :
    n < (size + step - 1) / step ↔ n * step < size := by
  rw [← Nat.succ_le_iff, Nat.le_div_iff_mul_le positive, Nat.succ_mul]
  omega

theorem factor_pow (i k : Nat) : factor (2 ^ i) (2 ^ k) = 2 ^ (max i k - min i k) := by
  rcases Nat.le_total i k with le | le
  · have atMost : 2 ^ i ≤ 2 ^ k := Nat.pow_le_pow_right (by decide) le
    rw [factor, Nat.max_eq_right atMost, Nat.min_eq_left atMost, Nat.max_eq_right le,
      Nat.min_eq_left le, Nat.pow_div le (by decide)]
  · have atMost : 2 ^ k ≤ 2 ^ i := Nat.pow_le_pow_right (by decide) le
    rw [factor, Nat.max_eq_left atMost, Nat.min_eq_right atMost, Nat.max_eq_left le,
      Nat.min_eq_right le, Nat.pow_div le (by decide)]

/-- A factor that is not a divisor of the size exceeds it, and then one bucket is relocated at a
time. -/
theorem lt_min_iff {i d : Nat} (n : Nat) :
    n < min (2 ^ i) (2 ^ d) ↔ n * ((2 ^ i + 2 ^ d - 1) / 2 ^ d) < 2 ^ i := by
  rcases Nat.le_total d i with le | le
  · have parts : 2 ^ i = 2 ^ (i - d) * 2 ^ d := by rw [← Nat.pow_add, Nat.sub_add_cancel le]
    have quotient : (2 ^ i + 2 ^ d - 1) / 2 ^ d = 2 ^ (i - d) := by
      apply Nat.div_eq_of_lt_le
      · rw [← parts]
        have := Nat.two_pow_pos d
        omega
      · rw [Nat.succ_mul, ← parts]
        have := Nat.two_pow_pos d
        omega
    rw [Nat.min_eq_right (Nat.pow_le_pow_right (by decide) le), quotient]
    conv => rhs; rw [parts, Nat.mul_comm]
    exact (Nat.mul_lt_mul_left (Nat.two_pow_pos _)).symm
  · have small : 2 ^ i ≤ 2 ^ d := Nat.pow_le_pow_right (by decide) le
    have positive := Nat.two_pow_pos i
    have quotient : (2 ^ i + 2 ^ d - 1) / 2 ^ d = 1 := by
      apply Nat.div_eq_of_lt_le
      · omega
      · omega
    rw [Nat.min_eq_left small, quotient, Nat.mul_one]

theorem lt_turns_iff {pace : Pace} (moves : pace ≠ .fixed 0) (i k n : Nat) :
    n < pace.turns (2 ^ i) (2 ^ k) ↔ n * pace.step (2 ^ i) (2 ^ k) < 2 ^ i := by
  cases pace with
  | fixed buckets =>
    exact lt_ceil_iff (Nat.pos_of_ne_zero fun none => moves (congrArg Pace.fixed none)) n
  | full =>
    have positive := Nat.two_pow_pos i
    constructor
    · intro first
      rw [Nat.lt_one_iff.mp first, Nat.zero_mul]
      exact positive
    · intro less
      exact Nat.lt_of_mul_lt_mul_right (less.trans_eq (Nat.one_mul _).symm)
  | auto =>
    simp only [turns, step, factor_pow]
    exact lt_min_iff n

end Pace

/-- The steps that a resize reports, from a bucket on, with the entries that each of them moved. -/
def stepsFrom (old step : Nat) : Nat → List Nat → List Event
  | _, [] => []
  | start, moved :: rest =>
    .stepped start (min (start + step) old) moved :: stepsFrom old step (start + step) rest

theorem stepsFrom_concat (old step start : Nat) (moved : List Nat) (last : Nat) :
    stepsFrom old step start (moved ++ [last]) =
      stepsFrom old step start moved ++ [.stepped (start + moved.length * step)
        (min (start + moved.length * step + step) old) last] := by
  induction moved generalizing start with
  | nil => simp [stepsFrom]
  | cons first rest ih =>
    have place : start + step + rest.length * step = start + (rest.length + 1) * step := by
      rw [Nat.add_mul, Nat.one_mul]
      omega
    simp only [List.cons_append, stepsFrom, ih, place, List.length_cons]

/-- What a resize from `old` to `new` buckets has reported after so many turns. -/
def Logged (pace : Pace) (old new turns : Nat) (events : List Event) : Prop :=
  ∃ len moved ending, moved.length = turns ∧
    events = .started len old new :: stepsFrom old (pace.step old new) 0 moved ++ ending ∧
    (turns < pace.turns old new → ending = []) ∧
    (turns = pace.turns old new → ∃ all, ending = [.finished all old new])

theorem logged_further {pace : Pace} {old new turns : Nat} {events ending : List Event}
    (moved : Nat) (logged : Logged pace old new turns events) (more : turns < pace.turns old new)
    (still : turns + 1 < pace.turns old new → ending = [])
    (ended : turns + 1 = pace.turns old new → ∃ all, ending = [.finished all old new]) :
    Logged pace old new (turns + 1) (events ++ .stepped (turns * pace.step old new)
      (min (turns * pace.step old new + pace.step old new) old) moved :: ending) := by
  obtain ⟨len, before, nothing, count, rfl, none, -⟩ := logged
  refine ⟨len, before ++ [moved], ending, by simp [count], ?_, still, ended⟩
  rw [stepsFrom_concat, none more, count, Nat.zero_add]
  simp

namespace Plain

variable {K V : Type} {p q : Plain K V} {pace : Pace} {old new turns : Nat} {events : List Event}

structure Beside (p q : Plain K V) : Prop where
  resize : q.resize? = p.resize?
  size : q.active.length = p.active.length
  config : q.config = p.config

structure Scheduled (pace : Pace) (old new turns : Nat) (events : List Event) (p : Plain K V) :
    Prop where
  paced : p.config.pace = pace
  logged : Logged pace old new turns events
  midway : turns < pace.turns old new →
    p.resize? = some (turns * pace.step old new, new) ∧ p.active.length = old
  ended : turns = pace.turns old new → p.resize? = none ∧ p.active.length = new

theorem scheduled_beside (scheduled : p.Scheduled pace old new turns events) (beside : Beside p q) :
    q.Scheduled pace old new turns events := by
  refine ⟨?_, scheduled.logged, ?_, ?_⟩
  · rw [beside.config]
    exact scheduled.paced
  · rw [beside.resize, beside.size]
    exact scheduled.midway
  · rw [beside.resize, beside.size]
    exact scheduled.ended

theorem beside_put (p : Plain K V) (key : K) (value : V) : Beside p (p.put key value) := by
  unfold put
  cases moving : p.moving with
  | none => exact ⟨by simp [resize?, moving], by simp, rfl⟩
  | some state => exact ⟨by simp [resize?, moving], rfl, rfl⟩

theorem beside_whereFound [BEq K] (p : Plain K V) (key : K) {change : Rows (K × V) → Rows (K × V)}
    (length : ∀ rows, (change rows).length = rows.length) :
    Beside p (p.whereFound key change) := by
  unfold whereFound
  split
  · refine ⟨?_, rfl, rfl⟩
    cases moving : p.moving with
    | none => simp [resize?, moving]
    | some state => simp [resize?, moving, length]
  · exact ⟨rfl, length _, rfl⟩

theorem relocate_report {cursor : Nat} {target : Rows (K × V)}
    (moving : p.moving = some (cursor, target)) (steps : Nat) :
    (cursor + steps < p.active.length ∧
        (p.relocate steps).1.resize? = some (cursor + steps, target.length) ∧
        (p.relocate steps).1.active.length = p.active.length ∧
        ∃ moved, (p.relocate steps).2 = [.stepped cursor (cursor + steps) moved]) ∨
      (p.active.length ≤ cursor + steps ∧ (p.relocate steps).1.resize? = none ∧
        (p.relocate steps).1.active.length = target.length ∧
        ∃ moved all, (p.relocate steps).2 = [.stepped cursor p.active.length moved,
          .finished all p.active.length target.length]) := by
  by_cases more : cursor + steps < p.active.length
  · have stop : min (cursor + steps) p.active.length = cursor + steps := by omega
    refine Or.inl ⟨more, ?_⟩
    simp [relocate, moving, stop, more, resize?, shifted, Rows.length_shifts,
      Rows.length_shifts_target]
  · have stop : min (cursor + steps) p.active.length = p.active.length := by omega
    refine Or.inr ⟨Nat.le_of_not_lt more, ?_⟩
    simp [relocate, moving, stop, resize?, shifted, Rows.length_shifts_target]

theorem stride_scheduled {cursor : Nat} {target : Rows (K × V)}
    (moving : p.moving = some (cursor, target)) :
    p.stride = p.config.pace.step p.active.length target.length := by
  unfold stride Pace.step Pace.factor
  cases p.config.pace <;> simp [moving]

theorem lt_turns_moving (tidy : p.Tidy) {cursor : Nat} {target : Rows (K × V)}
    (moving : p.moving = some (cursor, target)) (n : Nat) :
    n < p.config.pace.turns p.active.length target.length ↔ n * p.stride < p.active.length := by
  obtain ⟨i, size⟩ := tidy.size
  obtain ⟨k, targetSize⟩ := (tidy.midway cursor target moving).size
  rw [stride_scheduled moving, size, targetSize]
  exact Pace.lt_turns_iff (pace_moves tidy) i k n

/-- A turn in the middle of a resize is one more step, and the last one that is needed ends it. -/
theorem relocate_scheduled (tidy : p.Tidy) (scheduled : p.Scheduled pace old new turns events)
    (more : turns < pace.turns old new) :
    (p.relocate p.stride).1.Scheduled pace old new (turns + 1)
      (events ++ (p.relocate p.stride).2) := by
  obtain ⟨place, size⟩ := scheduled.midway more
  obtain ⟨⟨cursor, target⟩, moving, same⟩ := Option.map_eq_some_iff.mp place
  cases same
  subst size
  obtain rfl := scheduled.paced
  have config : (p.relocate p.stride).1.config = p.config := (settings_relocate _).2
  -- There is a turn after this one just when this one does not get to the last bucket.
  have within := lt_turns_moving tidy moving (turns + 1)
  have outcome := relocate_report moving p.stride
  rw [stride_scheduled moving] at config within outcome ⊢
  rw [Nat.succ_mul] at within
  have log := fun moved ending => @logged_further _ _ _ _ _ ending moved scheduled.logged more
  generalize step : p.config.pace.step p.active.length target.length = steps at *
  rcases outcome with
    ⟨below, midway, size, moved, report⟩ | ⟨reached, ended, size, moved, all, report⟩
  · have early := within.mpr below
    have stop : min (turns * steps + steps) p.active.length = turns * steps + steps := by omega
    have logged := log moved [] (fun _ => rfl) (by omega)
    rw [stop, ← report] at logged
    refine ⟨congrArg Config.pace config, logged, fun _ => ⟨?_, size⟩, by omega⟩
    rw [midway, step, Nat.succ_mul]
  · have late : ¬ turns + 1 < p.config.pace.turns p.active.length target.length := by omega
    have stop : min (turns * steps + steps) p.active.length = p.active.length := by omega
    have logged := log moved [.finished all p.active.length target.length] (by omega)
      fun _ => ⟨all, rfl⟩
    rw [stop, ← report] at logged
    exact ⟨congrArg Config.pace config, logged, by omega, fun _ => ⟨ended, size⟩⟩

theorem upkeep_scheduled (tidy : p.Tidy) (scheduled : p.Scheduled pace old new turns events)
    (more : turns < pace.turns old new) :
    p.upkeep.1.Scheduled pace old new (turns + 1) (events ++ p.upkeep.2) := by
  have idle : p.startResize = (p, []) := by
    rcases startResize_cases p with idle | ⟨stable, -, -⟩
    · exact idle
    · have place := (scheduled.midway more).1
      simp [resize?, stable] at place
  have running : p.moving.isSome = true := by
    have place := (scheduled.midway more).1
    cases moving : p.moving with
    | none => simp [resize?, moving] at place
    | some state => rfl
  have upkept : p.upkeep = p.relocate p.stride := by
    simp only [upkeep, idle, if_pos running, List.nil_append]
  rw [upkept]
  exact relocate_scheduled tidy scheduled more

theorem started_not_relocated (p : Plain K V) (steps len : Nat) :
    Event.started len old new ∉ (p.relocate steps).2 := by
  cases moving : p.moving with
  | none => simp [relocate, moving]
  | some state =>
    rcases relocate_report moving steps with
      ⟨-, -, -, moved, report⟩ | ⟨-, -, -, moved, all, report⟩
    · simp [report]
    · simp [report]

theorem startResize_scheduled (tidy : p.Tidy) (stable : p.moving = none)
    (due : p.config.resizeDue p.active.flatten.length p.active.length = true) :
    let new := p.config.fittingBuckets p.active.flatten.length
    0 < p.config.pace.turns p.active.length new ∧
      p.startResize.1.Scheduled p.config.pace p.active.length new 0 p.startResize.2 := by
  intro new
  have begunTidy := startResize_tidy tidy
  have begun : p.startResize = ({ p with
      moving := some (0, List.replicate new []) },
      [.started p.active.flatten.length p.active.length new]) := by
    rw [startResize, stable, due]
    rfl
  rw [begun] at begunTidy ⊢
  have first := (lt_turns_moving begunTidy rfl 0).mpr (by simpa using active_positive tidy)
  rw [List.length_replicate] at first
  refine ⟨first, rfl, ⟨_, [], [], rfl, rfl, fun _ => rfl, ?_⟩, fun _ => ?_, ?_⟩
  · intro none
    exact absurd first (none ▸ Nat.lt_irrefl _)
  · simp [resize?]
  · intro none
    exact absurd first (none ▸ Nat.lt_irrefl _)

theorem upkeep_begins (tidy : p.Tidy) {len : Nat} (begun : .started len old new ∈ p.upkeep.2) :
    p.resize? = none ∧ p.active.length = old ∧
      p.upkeep.1.Scheduled p.config.pace old new 1 p.upkeep.2 := by
  rcases startResize_cases p with idle | ⟨stable, due, started⟩
  · have absent : Event.started len old new ∉ p.upkeep.2 := by
      simp only [upkeep, idle]
      split
      · exact started_not_relocated p _ len
      · exact List.not_mem_nil
    exact absurd begun absent
  · obtain ⟨positive, scheduled⟩ := startResize_scheduled tidy stable due
    have upkept : p.upkeep = ((p.startResize.1.relocate p.startResize.1.stride).1,
        p.startResize.2 ++ (p.startResize.1.relocate p.startResize.1.stride).2) := by
      simp [upkeep, started]
    rw [upkept, started] at begun
    simp only [List.cons_append, List.nil_append, List.mem_cons, started_not_relocated, or_false,
      Event.started.injEq] at begun
    obtain ⟨rfl, rfl, rfl⟩ := begun
    rw [upkept]
    exact ⟨by simp [resize?, stable], rfl,
      relocate_scheduled (startResize_tidy tidy) scheduled positive⟩

end Plain

variable {K V : Type}

/-- An operation that brings a resize forward, or begins one, by one upkeep. -/
def Op.advances : Op K V → Bool
  | .insert _ _ | .get _ | .getEntry _ | .replace _ _ | .contains _ | .remove _ | .erase _ => true
  | _ => false

def Op.rests : Op K V → Bool
  | .peek _ | .count | .copy => true
  | _ => false

structure OnSchedule (pace : Pace) (old new turns : Nat) (events : List Event)
    (map : ChainMap K V) : Prop where
  logged : Logged pace old new turns events
  midway : turns < pace.turns old new →
    map.resize? = some (turns * pace.step old new, new) ∧ map.active.buckets = old
  ended : turns = pace.turns old new → map.resize? = none ∧ map.active.buckets = new

section Operations

variable [BEq K] {map next : ChainMap K V} {p : Plain K V} {op : Op K V} {answer : Answer K V}
  {events : List Event}

theorem advance_depicts (depicts : Depicts map p) (advances : op.advances = true)
    (ran : op.report map = .ok ((answer, events), next)) :
    events = p.upkeep.2 ∧ ∃ q, Depicts next q ∧ Plain.Beside p.upkeep.1 q := by
  have same : Plain.Beside p.upkeep.1 p.upkeep.1 := ⟨rfl, rfl, rfl⟩
  cases op with
  | insert key value =>
    have alike := insert_depicts depicts key value
    cases done : map.insert key value with
    | error fault => simp [Op.report, done] at ran
    | ok outcome =>
      simp only [Op.report, done, ok_bind] at ran
      cases ran
      simp only [done, Plain.insert] at alike
      cases found : p.upkeep.1.find? key with
      | some pair =>
        rw [found] at alike
        exact ⟨alike.2.1, _, alike.2.2,
          Plain.beside_whereFound _ key fun _ => Rows.length_revise _ _ _⟩
      | none =>
        simp only [found] at alike
        split at alike
        · exact ⟨alike.2.1, _, alike.2.2, Plain.beside_put _ key value⟩
        · exact alike.elim
  | get key =>
    obtain ⟨outcome, done, -, reported, after⟩ := get_depicts depicts key
    simp only [Op.report, done, ok_bind] at ran
    cases ran
    exact ⟨reported, _, after, same⟩
  | getEntry key =>
    obtain ⟨outcome, done, -, reported, after⟩ := getEntry_depicts depicts key
    simp only [Op.report, done, ok_bind] at ran
    cases ran
    exact ⟨reported, _, after, same⟩
  | contains key =>
    obtain ⟨outcome, done, -, reported, after⟩ := contains_depicts depicts key
    simp only [Op.report, done, ok_bind] at ran
    cases ran
    exact ⟨reported, _, after, same⟩
  | replace key value =>
    obtain ⟨outcome, done, -, reported, after⟩ := replace_depicts depicts key value
    simp only [Op.report, done, ok_bind] at ran
    cases ran
    exact ⟨reported, _, after, Plain.beside_whereFound _ key fun _ => Rows.length_revise _ _ _⟩
  | remove key =>
    obtain ⟨outcome, done, -, reported, after⟩ := remove_depicts depicts key
    simp only [Op.report, done, ok_bind] at ran
    cases ran
    exact ⟨reported, _, after, Plain.beside_whereFound _ key fun _ => Rows.length_discard _ _⟩
  | erase key =>
    obtain ⟨outcome, done, -, reported, after⟩ := remove_depicts depicts key
    simp only [Op.report, erase, done, ok_bind] at ran
    cases ran
    exact ⟨reported, _, after, Plain.beside_whereFound _ key fun _ => Rows.length_discard _ _⟩
  | _ => cases advances

theorem rest_depicts (depicts : Depicts map p) (rests : op.rests = true)
    (ran : op.report map = .ok ((answer, events), next)) : events = [] ∧ Depicts next p := by
  cases op with
  | peek key =>
    simp only [Op.report, peek_depicts depicts, ok_bind] at ran
    cases ran
    exact ⟨rfl, depicts⟩
  | count =>
    cases ran
    exact ⟨rfl, depicts⟩
  | copy =>
    cases ran
    exact ⟨rfl, copy_depicts depicts⟩
  | _ => cases rests

variable {pace : Pace} {old new turns n : Nat} {past : List Event}

theorem op_scheduled (modest : Modest n map) (depicts : Depicts map p)
    (scheduled : p.Scheduled pace old new turns past)
    (allowed : op.advances = true ∨ op.rests = true)
    (few : (turns + if op.advances then 1 else 0) ≤ pace.turns old new) :
    Safe (Scarce (n + op.insertions)) (fun result => Modest (n + op.insertions) result.2 ∧
        ∃ q, Depicts result.2 q ∧ q.Scheduled pace old new
          (turns + if op.advances then 1 else 0) (past ++ result.1.2))
      (op.report map) := by
  apply safe_imp (safe_done (report_safe op n map modest)) id
  rintro ⟨⟨answer, events⟩, next⟩ ⟨done, after⟩
  refine ⟨after, ?_⟩
  by_cases advances : op.advances = true
  · obtain ⟨same, q, left, beside⟩ := advance_depicts depicts advances done
    rw [if_pos advances] at few ⊢
    rw [same]
    exact ⟨q, left, Plain.scheduled_beside
      (Plain.upkeep_scheduled depicts.tidy scheduled (Nat.lt_of_succ_le few)) beside⟩
  · obtain ⟨same, left⟩ := rest_depicts depicts (allowed.resolve_left advances) done
    rw [if_neg advances, same, List.append_nil]
    exact ⟨p, left, scheduled⟩

theorem ops_scheduled (ops : List (Op K V)) (modest : Modest n map) (depicts : Depicts map p)
    (scheduled : p.Scheduled pace old new turns past)
    (allowed : ∀ op ∈ ops, op.advances = true ∨ op.rests = true)
    (few : turns + ops.countP Op.advances ≤ pace.turns old new) :
    Safe (Scarce (n + (ops.map Op.insertions).sum))
      (fun result => ∃ q, Depicts result.2 q ∧ q.Scheduled pace old new
        (turns + ops.countP Op.advances) (past ++ (result.1.map (·.2)).flatten))
      (runAll Op.report ops map) := by
  induction ops generalizing map p n turns past with
  | nil =>
    refine ⟨p, depicts, ?_⟩
    simpa using scheduled
  | cons op ops ih =>
    rw [List.countP_cons, Nat.add_comm (ops.countP _), ← Nat.add_assoc] at few ⊢
    rw [List.map_cons, List.sum_cons, ← Nat.add_assoc]
    apply safe_bind (op_scheduled modest depicts scheduled (allowed op List.mem_cons_self)
      (Nat.le_trans (Nat.le_add_right _ _) few)) (scarce_later _ _ (Nat.le_add_right _ _))
    rintro ⟨⟨answer, events⟩, next⟩ ⟨after, q, left, further⟩
    apply safe_bind (ih after left further
      (fun other member => allowed other (List.mem_cons_of_mem _ member)) few) id
    rintro ⟨others, last⟩ ⟨r, final, reached⟩
    refine ⟨r, final, ?_⟩
    simpa using reached

/-- Whatever the settings, the hash function and the comparison of keys, a resize that an operation
begins is brought to its end by as many operations as its pace and its two sizes say, that one
included, and not by fewer. -/
theorem resizes_keep_schedule {hash : K → UInt64} (reachable : Reachable hash map)
    (advances : op.advances = true) (ran : op.report map = .ok ((answer, events), next))
    {len : Nat} (begun : .started len old new ∈ events) :
    map.resize? = none ∧ map.active.buckets = old ∧
      ∀ ops : List (Op K V), (∀ other ∈ ops, other.advances = true ∨ other.rests = true) →
        1 + ops.countP Op.advances ≤ map.config.pace.turns old new →
        Safe (Scarce (next.len + (ops.map Op.insertions).sum))
          (fun result => OnSchedule map.config.pace old new (1 + ops.countP Op.advances)
            (events ++ (result.1.map (·.2)).flatten) result.2)
          (runAll Op.report ops next) := by
  obtain ⟨p, depicts, -⟩ := reachable_depicts reachable
  obtain ⟨size, -, config⟩ := sizes_of_represents depicts.represents
  obtain ⟨rfl, q, left, beside⟩ := advance_depicts depicts advances ran
  obtain ⟨stable, old, scheduled⟩ := Plain.upkeep_begins depicts.tidy begun
  rw [size, config, resize?_depicts depicts]
  refine ⟨stable, old, fun ops allowed few => ?_⟩
  have modest : Modest next.len next := ⟨q, left, Nat.le_of_eq (len_depicts left).symm⟩
  apply safe_imp (ops_scheduled ops modest left (Plain.scheduled_beside scheduled beside) allowed
    few) id
  rintro result ⟨r, final, reached⟩
  have resize := resize?_depicts final
  have size := (sizes_of_represents final.represents).1
  refine ⟨reached.logged, ?_, ?_⟩
  · rw [resize, size]
    exact reached.midway
  · rw [resize, size]
    exact reached.ended

theorem resizes_keep_schedule_words :
    ∃ map : ChainMap UInt64 Nat,
      Op.run (.extend [(1, 10), (2, 20), (3, 30), (4, 40), (5, 50)])
          (build { pace := .fixed 1 } id) = .ok (.done, map) ∧
        ∃ answer events next, Op.report (.insert 6 60) map = .ok ((answer, events), next) ∧
          .started 5 4 8 ∈ events ∧
          1 + [Op.get 1, .peek 3, .erase 2, .insert 7 70].countP Op.advances =
            map.config.pace.turns 4 8 ∧
          Safe (Scarce (next.len + 1))
            (fun result => OnSchedule map.config.pace 4 8 4
              (events ++ (result.1.map (·.2)).flatten) result.2)
            (runAll Op.report [.get 1, .peek 3, .erase 2, .insert 7 70] next) := by
  have start : Reachable id (build { pace := .fixed 1 } id : ChainMap UInt64 Nat) :=
    build_reachable Config.single_valid id
  have grown : ∃ map : ChainMap UInt64 Nat,
      Op.run (.extend [(1, 10), (2, 20), (3, 30), (4, 40), (5, 50)])
          (build { pace := .fixed 1 } id) = .ok (.done, map) ∧ map.config.pace = .fixed 1 ∧
        (Op.report (.insert 6 60) map).map (·.1.2) = .ok [.started 5 4 8, .stepped 0 1 1] :=
    ⟨_, rfl, rfl, by decide +kernel⟩
  obtain ⟨map, ran, pace, told⟩ := grown
  rcases reported : Op.report (.insert 6 60) map with fault | ⟨⟨answer, events⟩, next⟩
  · simp [reported, Except.map] at told
  · rw [reported] at told
    obtain rfl : events = [.started 5 4 8, .stepped 0 1 1] := by simpa [Except.map] using told
    obtain ⟨-, -, turns⟩ :=
      resizes_keep_schedule (start.step ran) rfl reported List.mem_cons_self
    exact ⟨map, ran, answer, _, next, reported, List.mem_cons_self, by rw [pace]; rfl,
      turns [.get 1, .peek 3, .erase 2, .insert 7 70] (by decide) (by rw [pace]; decide)⟩

end Operations

end MemIndex.ChainMap
