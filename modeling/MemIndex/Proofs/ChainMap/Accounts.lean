import MemIndex.Proofs.ChainMap.Reports
import MemIndex.Proofs.ChainMap.Safety
import MemIndex.Record

/- The events of a map keep account of its resizes. They come in blocks, a start, steps and an end,
   and the entries that a block moves are all that the active table held at the start, but for those
   that were removed from it meanwhile. -/
namespace MemIndex.ChainMap

structure Running where
  len : Nat
  old : Nat
  new : Nat
  cursor : Nat
  moved : Nat
  removed : Nat
  deriving DecidableEq, Repr

structure Account where
  count : Nat
  running : Option Running
  deriving DecidableEq, Repr

namespace Account

def blank : Account := ⟨0, none⟩

/-- No last step is waiting for the end of its resize. -/
def Open (account : Account) : Prop :=
  ∀ running, account.running = some running → running.cursor < running.old

inductive Enters : Account → Mark → Account → Prop where
  | started {count old new : Nat} (other : old ≠ new) :
    Enters ⟨count, none⟩ (.event (.started count old new))
      ⟨count, some ⟨count, old, new, 0, 0, 0⟩⟩
  | stepped {count stop moved : Nat} {running : Running} (below : running.cursor < running.old)
    (forward : running.cursor ≤ stop) (within : stop ≤ running.old) :
    Enters ⟨count, some running⟩ (.event (.stepped running.cursor stop moved))
      ⟨count, some { running with cursor := stop, moved := running.moved + moved }⟩
  | finished {count : Nat} {running : Running} (reached : running.cursor = running.old)
    (balanced : running.moved + running.removed = running.len) :
    Enters ⟨count, some running⟩ (.event (.finished count running.old running.new)) ⟨count, none⟩
  | added {count : Nat} {running : Option Running} (isOpen : Open ⟨count, running⟩) :
    Enters ⟨count, running⟩ .added ⟨count + 1, running⟩
  | removed {count : Nat} : Enters ⟨count + 1, none⟩ (.removed .active) ⟨count, none⟩
  | removedMidway {count : Nat} {running : Running} (below : running.cursor < running.old) :
    Enters ⟨count + 1, some running⟩ (.removed .active)
      ⟨count, some { running with removed := running.removed + 1 }⟩
  | removedAhead {count : Nat} {running : Running} (below : running.cursor < running.old) :
    Enters ⟨count + 1, some running⟩ (.removed .target) ⟨count, some running⟩
  | emptied {account : Account} (isOpen : account.Open) : Enters account .emptied blank

inductive Reads : Account → List Mark → Account → Prop where
  | nil (account : Account) : Reads account [] account
  | cons {account next last : Account} {mark : Mark} {marks : List Mark}
    (first : Enters account mark next) (rest : Reads next marks last) :
    Reads account (mark :: marks) last

theorem reads_one {account next : Account} {mark : Mark} (enters : account.Enters mark next) :
    account.Reads [mark] next := .cons enters (.nil next)

theorem reads_append {account next last : Account} {marks others : List Mark}
    (first : account.Reads marks next) (rest : next.Reads others last) :
    account.Reads (marks ++ others) last := by
  induction first with
  | nil => exact rest
  | cons enters _ ih => exact .cons enters (ih rest)

/-- The account of a resize with this cursor, to this size, from a table of `old` buckets with
`left` entries. -/
def Follows (account : Account) (resize : Option (Nat × Nat)) (old left : Nat) : Prop :=
  match resize with
  | none => account.running = none
  | some (cursor, new) => cursor < old ∧ ∃ moved removed len,
    account.running = some ⟨len, old, new, cursor, moved, removed⟩ ∧ moved + removed + left = len

theorem open_of_follows {account : Account} {resize : Option (Nat × Nat)} {old left : Nat}
    (follows : account.Follows resize old left) : account.Open := by
  intro running is
  cases resize with
  | none => cases follows.symm.trans is
  | some state =>
    obtain ⟨below, moved, removed, len, same, -⟩ := follows
    cases same.symm.trans is
    exact below

end Account

variable {K V : Type}

def resize? (map : ChainMap K V) : Option (Nat × Nat) :=
  match map.phase with
  | .stable => none
  | .resizing cursor target => some (cursor, target.buckets)

structure Account.Matches (account : Account) (map : ChainMap K V) : Prop where
  count : account.count = map.len
  running : account.Follows map.resize? map.active.buckets map.active.len

def Event.Directed : Event → Prop
  | .started len old new =>
    (("direction", Detail.word "grow") ∈ (Event.started len old new).record.details ↔ old < new) ∧
    (("direction", Detail.word "shrink") ∈ (Event.started len old new).record.details ↔ new < old)
  | _ => True

namespace Plain

variable {p q : Plain K V} {account : Account}

def resize? (p : Plain K V) : Option (Nat × Nat) :=
  p.moving.map fun (cursor, target) => (cursor, target.length)

structure Covered (p : Plain K V) (account : Account) : Prop where
  count : account.count = p.entries.length
  running : account.Follows p.resize? p.active.length p.active.flatten.length

theorem start_read (tidy : p.Tidy) (covered : p.Covered account) :
    ∃ after, account.Reads (p.startResize.2.map .event) after ∧ p.startResize.1.Covered after := by
  have begunTidy := startResize_tidy tidy
  rcases startResize_cases p with idle | ⟨stable, -, begun⟩
  · rw [idle]
    exact ⟨account, .nil account, covered⟩
  · obtain ⟨count, running⟩ := account
    have same : count = p.entries.length := covered.count
    have rests := covered.running
    simp only [resize?, stable, Option.map_none] at rests
    cases (rests : running = none)
    have all : p.active.flatten.length = count := by
      rw [same, entries, target, stable, List.flatten_nil, List.append_nil]
    rw [begun] at begunTidy ⊢
    have other := (begunTidy.midway _ _ rfl).other
    have inside := (begunTidy.midway _ _ rfl).inside
    rw [List.length_replicate] at other
    simp only [List.map_cons, List.map_nil, all] at other ⊢
    refine ⟨_, Account.reads_one (.started other.symm), ?_, inside, 0, 0, count, ?_, ?_⟩
    · simp [entries, target, all]
    · simp
    · simp [all]

theorem relocate_read (tidy : p.Tidy) (covered : p.Covered account) (steps : Nat) :
    ∃ after, account.Reads ((p.relocate steps).2.map .event) after ∧
      (p.relocate steps).1.Covered after := by
  have kept := (relocate_perm tidy steps).length_eq
  cases moving : p.moving with
  | none =>
    have idle : p.relocate steps = (p, []) := by simp [relocate, moving]
    rw [idle]
    exact ⟨account, .nil account, covered⟩
  | some state =>
    obtain ⟨cursor, target⟩ := state
    obtain ⟨count, running⟩ := account
    have same : count = p.entries.length := covered.count
    have runs := covered.running
    simp only [resize?, moving, Option.map_some] at runs
    obtain ⟨below, moved, removed, len, known, balanced⟩ := runs
    cases (known : running = some _)
    let stop := min (cursor + steps) p.active.length
    let shifted := p.shifted cursor (stop - cursor) target
    let gone := p.active.flatten.length - shifted.1.flatten.length
    have less : shifted.1.flatten.length ≤ p.active.flatten.length := Rows.flatten_shifts_le
    have size : shifted.1.length = p.active.length := Rows.length_shifts
    have targetSize : shifted.2.length = target.length := Rows.length_shifts_target
    have forward : cursor ≤ stop := by omega
    have within : stop ≤ p.active.length := Nat.min_le_right _ _
    have step := @Account.Enters.stepped count stop gone
      ⟨len, p.active.length, target.length, cursor, moved, removed⟩ below forward within
    by_cases more : stop < p.active.length
    · have result : p.relocate steps = ({ p with
          active := shifted.1
          moving := some (stop, shifted.2) }, [.stepped cursor stop gone]) := by
        simp only [relocate, moving]
        exact if_pos more
      rw [result] at kept ⊢
      refine ⟨_, Account.reads_one step, same.trans kept.symm, ?_⟩
      simp only [resize?, Option.map_some, size, targetSize]
      exact ⟨more, _, _, _, rfl, by omega⟩
    · have result : p.relocate steps = ({ p with active := shifted.2, moving := none },
          [.stepped cursor stop gone,
            .finished shifted.2.flatten.length p.active.length shifted.2.length]) := by
        simp only [relocate, moving]
        exact if_neg more
      -- The step that reaches the end leaves nothing behind, so it settles the sum.
      have reached : stop = p.active.length := by omega
      have emptied : shifted.1.flatten = [] :=
        shifted_empty (tidy.midway cursor target moving) (by omega)
      have all : moved + gone + removed = len := by
        simp only [gone, emptied, List.length_nil]
        omega
      rw [result] at kept ⊢
      have held : shifted.2.flatten.length = count := by
        rw [same, ← kept]
        simp [entries, Plain.target]
      have finish := @Account.Enters.finished count
        ⟨len, p.active.length, target.length, stop, moved + gone, removed⟩ reached all
      rw [held, targetSize]
      exact ⟨_, .cons step (Account.reads_one finish), same.trans kept.symm, rfl⟩

theorem put_read (tidy : p.Tidy) (covered : p.Covered account) (key : K) (value : V) :
    ∃ after, account.Reads [.added] after ∧ (p.put key value).Covered after := by
  obtain ⟨count, running⟩ := account
  have stored := (put_perm tidy key value).length_eq
  have same : count = p.entries.length := covered.count
  have runs := covered.running
  have isOpen := Account.open_of_follows runs
  refine ⟨_, Account.reads_one (.added isOpen), ?_, ?_⟩
  · rw [stored, List.length_cons, same]
  · cases moving : p.moving with
    | none =>
      simp only [resize?, moving, put, Option.map_none] at runs ⊢
      exact runs
    | some state =>
      simp only [resize?, moving, put, Option.map_some, Rows.length_put] at runs ⊢
      exact runs

theorem empty_read (covered : p.Covered account) (config : Config) (hash : K → UInt64) :
    ∃ after, account.Reads [.emptied] after ∧ (blank config hash : Plain K V).Covered after := by
  have isOpen := Account.open_of_follows covered.running
  refine ⟨_, Account.reads_one (.emptied isOpen), ?_, rfl⟩
  rw [entries_blank]
  rfl

variable [BEq K] {key : K}

theorem replace_covered (covered : p.Covered account) (value : V) :
    (p.replace key value).Covered account := by
  have count := covered.count.trans (length_replace key value).symm
  have runs := covered.running
  cases found : p.find? key with
  | none =>
    rw [replace_absent found]
    exact covered
  | some pair =>
    refine ⟨count, ?_⟩
    rcases found_cases found with ⟨cursor, target, moving, -, changed⟩ | ⟨-, hit, changed⟩
    · rw [replace, changed]
      simp only [resize?, moving, Option.map_some, Rows.length_revise] at runs ⊢
      exact runs
    · have perm := Rows.revise_perm hit fun pair => (pair.1, value)
      have discarded := Rows.discard_perm hit
      have length := perm.length_eq.trans discarded.length_eq
      rw [replace, changed]
      simp only [Rows.length_revise, resize?] at runs ⊢
      rw [length]
      exact runs

theorem discard_read (covered : p.Covered account) {home : Home}
    (found : p.home? key = some home) :
    ∃ after, account.Reads [.removed home] after ∧ (p.discard key).Covered after := by
  have stored : ∃ pair, p.find? key = some pair := by
    rw [← Option.ne_none_iff_exists', ne_eq, ← home?_none_iff, found]
    exact Option.some_ne_none home
  obtain ⟨pair, stored⟩ := stored
  obtain ⟨total, running⟩ := account
  have runs := covered.running
  have count := covered.count.trans (discard_perm stored).length_eq.symm
  rw [List.length_cons] at count
  cases (count : total = _)
  rcases found_cases stored with ⟨cursor, target, moving, hit, changed⟩ | ⟨missing, hit, changed⟩
  -- Only an entry of the active table is one that the steps will not move.
  · have itsTarget : p.target = target := by simp [Plain.target, moving]
    rw [home?, itsTarget, hit] at found
    cases found
    simp only [resize?, moving, Option.map_some] at runs
    obtain ⟨below, moved, removed, len, known, balanced⟩ := runs
    cases (known : running = some _)
    refine ⟨_, Account.reads_one (.removedAhead below), rfl, ?_⟩
    rw [discard, changed]
    simp only [resize?, Option.map_some, Rows.length_discard]
    exact ⟨below, moved, removed, len, rfl, balanced⟩
  · rw [home?, missing, hit] at found
    cases found
    have fewer := (Rows.discard_perm hit).length_eq
    rw [List.length_cons] at fewer
    cases moving : p.moving with
    | none =>
      simp only [resize?, moving, Option.map_none] at runs
      cases (runs : running = none)
      refine ⟨_, Account.reads_one .removed, rfl, ?_⟩
      rw [discard, changed]
      simp only [resize?, moving, Option.map_none]
      rfl
    | some state =>
      simp only [resize?, moving, Option.map_some] at runs
      obtain ⟨below, moved, removed, len, known, balanced⟩ := runs
      cases (known : running = some _)
      refine ⟨_, Account.reads_one (.removedMidway below), rfl, ?_⟩
      rw [discard, changed]
      simp only [resize?, moving, Option.map_some, Rows.length_discard]
      exact ⟨below, moved, removed + 1, len, rfl, by omega⟩

theorem moves_read {marks : List Mark} (moves : Moves p marks q) (tidy : p.Tidy)
    (covered : p.Covered account) :
    ∃ after, account.Reads marks after ∧ q.Covered after := by
  induction moves generalizing account with
  | still p => exact ⟨account, .nil account, covered⟩
  | start p => exact start_read tidy covered
  | relocate p steps => exact relocate_read tidy covered steps
  | put p key value => exact put_read tidy covered key value
  | replace p key value => exact ⟨account, .nil account, replace_covered covered value⟩
  | discard p found => exact discard_read covered found
  | empty p valid => exact empty_read covered _ _
  | trans one other first second =>
    obtain ⟨next, read, between⟩ := first tidy covered
    obtain ⟨last, more, after⟩ := second (moves_tidy one tidy) between
    exact ⟨last, Account.reads_append read more, after⟩

end Plain

section Runs

variable {map : ChainMap K V} {p : Plain K V} {account : Account}

theorem resize?_depicts (depicts : Depicts map p) : map.resize? = p.resize? := by
  obtain ⟨⟨active, target, laid, rfl⟩, -⟩ := depicts
  have onTarget := laid.targetLays
  cases phase : map.phase with
  | stable => simp [resize?, Plain.resize?, plainOf, phase]
  | resizing cursor table =>
    simp only [phase] at onTarget
    simp [resize?, Plain.resize?, plainOf, phase, Table.buckets_of_lays onTarget.1]

theorem matches_of_covered (depicts : Depicts map p) (covered : p.Covered account) :
    account.Matches map := by
  have runs := covered.running
  obtain ⟨size, len, -⟩ := sizes_of_represents depicts.represents
  refine ⟨covered.count.trans (len_depicts depicts).symm, ?_⟩
  rw [resize?_depicts depicts, size, len]
  exact runs

theorem directed_of_enters {next : Account} {event : Event}
    (enters : account.Enters (.event event) next) : event.Directed := by
  cases enters with
  | @started count old new other =>
    by_cases grows : old < new
    · simp [Event.Directed, Event.record, Direction.between, Direction.name, grows, Nat.le_of_lt]
    · have shrinks : new < old := by omega
      simp [Event.Directed, Event.record, Direction.between, Direction.name, grows, shrinks]
  | stepped => trivial
  | finished => trivial

theorem directed_of_reads {last : Account} {marks : List Mark} (reads : account.Reads marks last) :
    ∀ event ∈ marks.filterMap Mark.event?, event.Directed := by
  induction reads with
  | nil => simp
  | @cons account next last mark marks enters rest ih =>
    intro event member
    obtain ⟨one, inMarks, same⟩ := List.mem_filterMap.mp member
    rcases List.mem_cons.mp inMarks with rfl | later
    · cases one with
      | event reported =>
        cases same
        exact directed_of_enters enters
      | added | removed home | emptied => cases same
    · exact ih event (List.mem_filterMap.mpr ⟨one, later, same⟩)

variable [BEq K]

structure Balanced (results : List (Answer K V × List Event)) (told : List (List Mark))
    (next : ChainMap K V) : Prop where
  events : told.flatten.filterMap Mark.event? = (results.map (·.2)).flatten
  directed : ∀ event ∈ (results.map (·.2)).flatten, event.Directed
  account : ∃ account, Account.blank.Reads told.flatten account ∧ account.Matches next

theorem report_safe (op : Op K V) (n : Nat) (map : ChainMap K V) (modest : Modest n map) :
    Safe (Scarce (n + op.insertions)) (fun result => Modest (n + op.insertions) result.2)
      (op.report map) := by
  have safe := op_safe modest op
  rw [run_of_report] at safe
  exact safe_of_bind safe

/-- All events of a run, with the entries that come and go between them, are one account of the map.
A run only ends early when a store is out of slots, after more insertions than it has room for. -/
theorem events_balance {config : Config} (valid : config.Valid) (hash : K → UInt64)
    (ops : List (Op K V)) : ∃ map, ofConfig config hash = .ok map ∧
      ((∃ results told next, runAll Op.report ops map = .ok (results, next) ∧
          runAll Op.marks ops map = .ok (told, next) ∧ Balanced results told next) ∨
        (runAll Op.report ops map = .error .exhausted ∧
          Arena.maxSlots < (ops.map Op.insertions).sum)) := by
  have depicts : Depicts (build config hash : ChainMap K V) _ := build_depicts valid hash
  have tidy := depicts.tidy
  have start : (Plain.blank config.rounded hash : Plain K V).Covered Account.blank := by
    refine ⟨?_, rfl⟩
    rw [Plain.entries_blank]
    rfl
  have modest : Modest 0 (build config hash : ChainMap K V) := by
    refine ⟨_, depicts, ?_⟩
    rw [Plain.entries_blank]
    exact Nat.le_refl 0
  have safe := runAll_safe scarce_later report_safe ops modest
  have alike := ops_told depicts ops
  rw [Nat.zero_add] at safe
  refine ⟨_, ofConfig_valid valid hash, ?_⟩
  rcases safe_cases safe with ⟨⟨results, next⟩, done, -⟩ | failed
  · rw [done] at alike
    obtain ⟨⟨told, last⟩, ran, same, events, q, after, moves⟩ := matching_ok_left alike
    cases (same : last = next)
    obtain ⟨account, read, covered⟩ := Plain.moves_read moves tidy start
    have directed := directed_of_reads read
    rw [events] at directed
    exact Or.inl ⟨results, told, next, done, ran, events, directed, account, read,
      matches_of_covered after covered⟩
  · exact Or.inr failed

/-- The last operation cuts a resize off. -/
theorem events_balance_words : Config.Valid {} ∧ ∃ map : ChainMap UInt64 Nat,
    ofConfig {} id = .ok map ∧
      ((∃ results told next,
          runAll Op.report [.extend [(1, 10), (2, 20), (3, 30), (4, 40), (5, 50)], .insert 6 60,
            .clear] map = .ok (results, next) ∧
          runAll Op.marks [.extend [(1, 10), (2, 20), (3, 30), (4, 40), (5, 50)], .insert 6 60,
            .clear] map = .ok (told, next) ∧ Balanced results told next) ∨
        (runAll Op.report [.extend [(1, 10), (2, 20), (3, 30), (4, 40), (5, 50)], .insert 6 60,
            .clear] map = .error .exhausted ∧ Arena.maxSlots < 6)) :=
  ⟨Config.default_valid, events_balance Config.default_valid id
    [.extend [(1, 10), (2, 20), (3, 30), (4, 40), (5, 50)], .insert 6 60, .clear]⟩

example : (runAll Op.marks [.extend [(1, 10), (2, 20), (3, 30), (4, 40), (5, 50)], .insert 6 60,
      .erase 3, .settle] (build { pace := .fixed 1 } id : ChainMap UInt64 Nat)).map (·.1) =
    .ok [[.added, .added, .added, .added, .added],
      [.event (.started 5 4 8), .event (.stepped 0 1 1), .added],
      [.event (.stepped 1 2 2), .removed .active],
      [.event (.stepped 2 4 1), .event (.finished 5 4 8)]] := by decide +kernel

end Runs

end MemIndex.ChainMap
