import MemIndex.Proofs.ChainMap.Simulation

/- What operations report. The events alone do not tell how many entries there are, so they are read
   together with marks for what is stored and removed between them. -/
namespace MemIndex.ChainMap

variable {K V : Type}

inductive Home where
  | active
  | target
  deriving DecidableEq, Repr

inductive Mark where
  | event (event : Event)
  | added
  | removed (home : Home)
  | emptied
  deriving DecidableEq, Repr

def Mark.event? : Mark → Option Event
  | .event reported => some reported
  | _ => none

@[simp] theorem filterMap_event? (events : List Event) :
    (events.map Mark.event).filterMap Mark.event? = events := by
  rw [List.filterMap_map]
  exact List.filterMap_some

variable [BEq K]

section Running

def Op.reported {α : Type} (answer : α → Answer K V) (outcome : Outcome (ChainMap K V) Event α) :
    (Answer K V × List Event) × ChainMap K V :=
  ((answer outcome.answer, outcome.events), outcome.state)

def Op.report : Op K V → ChainMap K V →
    Except Fault ((Answer K V × List Event) × ChainMap K V)
  | .insert key value, map => do return reported .value (← map.insert key value)
  | .get key, map => do return reported .found (← map.get key)
  | .getEntry key, map => do return reported .entry (← map.getEntry key)
  | .replace key value, map => do return reported .found (← map.replace key value)
  | .contains key, map => do return reported .truth (← map.contains key)
  | .peek key, map => do return ((.value (← map.peek key), []), map)
  | .remove key, map => do return reported .value (← map.remove key)
  | .erase key, map => do return reported .truth (← map.erase key)
  | .count, map => return ((.count map.len, []), map)
  | .extend pairs, map => do return reported (fun _ => .done) (← map.extend pairs)
  | .ofList pairs, map => do
    return reported (fun _ => .done) (← ChainMap.ofList map.hash pairs)
  | .clear, map => do return ((.done, []), ← map.clear)
  | .rehash buckets, map => do return reported .running (← map.rehash buckets)
  | .settle, map => do return reported (fun _ => .done) (← map.settle)
  | .toList, map => do return reported .pairs (← map.toList)
  | .keys, map => do return reported .keys (← map.keys)
  | .values, map => do return reported .values (← map.values)
  | .copy, map => return ((.done, []), map.copy)

theorem run_of_report (op : Op K V) (map : ChainMap K V) :
    op.run map = do
      let (reported, next) ← op.report map
      return (reported.1, next) := by
  cases op <;> simp only [Op.run, Op.report, Op.answered, Op.reported, bind_assoc, pure_bind]

def home? (map : ChainMap K V) (key : K) : Except Fault (Option Home) := do
  let here := (← map.active.find? map.store (map.hash key) key).map fun _ => Home.active
  match map.target? with
  | none => return here
  | some target =>
    let there := (← target.find? map.store (map.hash key) key).map fun _ => Home.target
    return there.or here

def insertMarks (outcome : Outcome (ChainMap K V) Event (Option V)) : List Mark :=
  outcome.events.map .event ++ if outcome.answer.isNone then [.added] else []

def extendMarks (map : ChainMap K V) : List (K × V) → Except Fault (List Mark × ChainMap K V)
  | [] => return ([], map)
  | (key, value) :: rest => do
    let one ← map.insert key value
    let (marks, map) ← one.state.extendMarks rest
    return (insertMarks one ++ marks, map)

/-- An operation with its marks. A removal brings a resize forward before it removes. -/
def Op.marks : Op K V → ChainMap K V → Except Fault (List Mark × ChainMap K V)
  | .insert key value, map => do
    let done ← map.insert key value
    return (insertMarks done, done.state)
  | .remove key, map | .erase key, map => do
    let (upkept, _) ← map.upkeep
    let home ← upkept.home? key
    let done ← map.remove key
    return (done.events.map .event ++ home.toList.map .removed, done.state)
  | .extend pairs, map => map.extendMarks pairs
  | .ofList pairs, map => do
    let (marks, map) ← (ofHash map.hash).extendMarks pairs
    return (.emptied :: marks, map)
  | .clear, map => do return ([.emptied], ← map.clear)
  | op, map => do
    let (reported, map) ← op.report map
    return (reported.2.map .event, map)

end Running

namespace Plain

variable (p : Plain K V)

def home? (key : K) : Option Home :=
  ((p.hit p.target key).map fun _ => .target).or ((p.hit p.active key).map fun _ => .active)

inductive Moves : Plain K V → List Mark → Plain K V → Prop where
  | still (p : Plain K V) : Moves p [] p
  | start (p : Plain K V) : Moves p (p.startResize.2.map .event) p.startResize.1
  | relocate (p : Plain K V) (steps : Nat) :
    Moves p ((p.relocate steps).2.map .event) (p.relocate steps).1
  | put (p : Plain K V) (key : K) (value : V) : Moves p [.added] (p.put key value)
  | replace (p : Plain K V) (key : K) (value : V) : Moves p [] (p.replace key value)
  | discard (p : Plain K V) {key : K} {home : Home} (found : p.home? key = some home) :
    Moves p [.removed home] (p.discard key)
  | empty (p : Plain K V) {given : Config} (valid : given.Valid) :
    Moves p [.emptied] (blank given.rounded p.hash)
  | trans {p q r : Plain K V} {first second : List Mark} (one : Moves p first q)
    (other : Moves q second r) : Moves p (first ++ second) r

variable {p} {q : Plain K V} {marks : List Mark}

theorem moves_tidy (moves : Moves p marks q) (tidy : p.Tidy) : q.Tidy := by
  induction moves with
  | still p => exact tidy
  | start p => exact startResize_tidy tidy
  | relocate p steps => exact relocate_tidy tidy steps
  | put p key value => exact put_tidy tidy key value
  | replace p key value => exact replace_tidy tidy key value
  | discard p found => exact discard_tidy tidy _
  | empty p valid => exact blank_tidy valid p.hash
  | trans one other first second => exact second (first tidy)

theorem upkeep_moves (p : Plain K V) : Moves p (p.upkeep.2.map .event) p.upkeep.1 := by
  simp only [upkeep]
  split
  · rw [List.map_append]
    exact (Moves.start p).trans (Moves.relocate _ _)
  · exact Moves.start p

theorem rehash_moves (p : Plain K V) (buckets : Nat) :
    Moves p ((p.startResize.2 ++ (p.startResize.1.relocate buckets).2).map .event)
      (p.startResize.1.relocate buckets).1 := by
  rw [List.map_append]
  exact (Moves.start p).trans (Moves.relocate _ _)

theorem home?_none_iff {key : K} : p.home? key = none ↔ p.find? key = none := by
  simp only [home?, find?, Option.or_eq_none_iff, Option.map_eq_none_iff]

theorem discard_moves (p : Plain K V) (key : K) :
    Moves p ((p.home? key).toList.map .removed) (p.discard key) := by
  cases found : p.home? key with
  | some home => exact Moves.discard p found
  | none =>
    rw [discard_absent (home?_none_iff.mp found)]
    exact Moves.still p

end Plain

variable {map : ChainMap K V} {p : Plain K V}

theorem home?_depicts (depicts : Depicts map p) (key : K) :
    map.home? key = .ok (p.home? key) := by
  obtain ⟨⟨active, target, laid, rfl⟩, tidy⟩ := depicts
  have positive := active_positive tidy
  have inActive := Table.find?_ok laid.activeLays positive (active_short laid) (map.hash key) key
  have onTarget := laid.targetLays
  have hitTarget := hit_mapEach (plainOf map active target) target key
  have hitActive := hit_mapEach (plainOf map active target) active key
  have same : (plainOf map active target).active = active.mapEach (·.2) := rfl
  have hash : (plainOf map active target).hash = map.hash := rfl
  simp only [home?, Plain.home?, target_plainOf laid, same, hitTarget, hitActive, inActive, hash,
    ok_bind, Option.map_map]
  cases phase : map.phase with
  | stable =>
    simp only [phase] at onTarget
    subst onTarget
    simp [target?, phase, hitPlaced, Rows.row, Function.comp_def]
  | resizing cursor table =>
    simp only [phase] at onTarget
    have positive := target_positive tidy phase
    have inTarget := Table.find?_ok onTarget.1 positive (target_short laid) (map.hash key) key
    simp [target?, phase, inTarget, hitPlaced, Function.comp_def]

/-- The marks of a change are the events that were reported, with other marks between them. -/
structure Told (p : Plain K V) (events : List Event) (next : ChainMap K V)
    (told : List Mark × ChainMap K V) : Prop where
  state : told.2 = next
  events : told.1.filterMap Mark.event? = events
  moves : ∃ q, Depicts next q ∧ p.Moves told.1 q

theorem told_events {next : ChainMap K V} {events expected : List Event} {q : Plain K V}
    (same : events = expected) (after : Depicts next q)
    (moves : p.Moves (expected.map .event) q) : Told p events next (events.map .event, next) := by
  subst same
  exact ⟨rfl, filterMap_event? events, q, after, moves⟩

theorem told_trans {events others : List Event} {last : ChainMap K V} {q : Plain K V}
    {marks : List Mark} {told : List Mark × ChainMap K V} (moves : p.Moves marks q)
    (same : marks.filterMap Mark.event? = events) (rest : Told q others last told) :
    Told p (events ++ others) last (marks ++ told.1, told.2) := by
  obtain ⟨r, after, more⟩ := rest.moves
  refine ⟨rest.state, ?_, r, after, moves.trans more⟩
  rw [List.filterMap_append, same, rest.events]

theorem insert_told (depicts : Depicts map p) {key : K} {value : V}
    {outcome : Outcome (ChainMap K V) Event (Option V)}
    (done : map.insert key value = .ok outcome) :
    Told p outcome.events outcome.state (insertMarks outcome, outcome.state) := by
  have alike := insert_depicts depicts key value
  rw [done] at alike
  refine ⟨rfl, ?_, ?_⟩
  · unfold insertMarks
    rw [List.filterMap_append, filterMap_event?]
    split <;> simp [Mark.event?]
  · cases found : p.upkeep.1.find? key with
    | some pair =>
      simp only [Plain.insert, found] at alike
      obtain ⟨answer, events, after⟩ := alike
      refine ⟨_, after, ?_⟩
      rw [insertMarks, answer, events]
      exact (Plain.upkeep_moves p).trans (Plain.Moves.replace _ key value)
    | none =>
      simp only [Plain.insert, found] at alike
      split at alike
      · obtain ⟨answer, events, after⟩ := alike
        refine ⟨_, after, ?_⟩
        rw [insertMarks, answer, events]
        exact (Plain.upkeep_moves p).trans (Plain.Moves.put _ key value)
      · exact alike.elim

theorem extend_told (depicts : Depicts map p) (pairs : List (K × V)) :
    Matching (fun done told => Told p done.events done.state told)
      (map.extend pairs) (map.extendMarks pairs) := by
  induction pairs generalizing map p with
  | nil => exact ⟨rfl, rfl, p, depicts, Plain.Moves.still p⟩
  | cons pair rest ih =>
    obtain ⟨key, value⟩ := pair
    rw [extend, extendMarks]
    cases done : map.insert key value with
    | error fault => rfl
    | ok one =>
      have first := insert_told depicts done
      obtain ⟨q, after, moves⟩ := first.moves
      simp only [ok_bind]
      apply matching_bind (ih after)
      intro all told later
      exact told_trans moves first.events later

theorem remove_told (depicts : Depicts map p) (key : K) :
    ∃ upkept home outcome, map.upkeep = .ok upkept ∧ upkept.1.home? key = .ok home ∧
      map.remove key = .ok outcome ∧ Told p outcome.events outcome.state
        (outcome.events.map .event ++ home.toList.map .removed, outcome.state) := by
  obtain ⟨upkept, kept, between⟩ := upkeep_depicts depicts
  obtain ⟨outcome, done, -, events, after⟩ := remove_depicts depicts key
  refine ⟨_, _, outcome, kept, home?_depicts between key, done, rfl, ?_, _, after, ?_⟩
  · rw [List.filterMap_append, filterMap_event?]
    cases p.upkeep.1.home? key <;> simp [Mark.event?]
  · rw [events]
    exact (Plain.upkeep_moves p).trans (Plain.discard_moves _ key)

theorem op_told (depicts : Depicts map p) (op : Op K V) :
    Matching (fun result told => Told p result.1.2 result.2 told)
      (op.report map) (op.marks map) := by
  have upkept := Plain.upkeep_moves p
  have settled := Plain.Moves.relocate p p.active.length
  cases op with
  | insert key value =>
    simp only [Op.report, Op.marks]
    cases done : map.insert key value with
    | error fault => rfl
    | ok one => exact insert_told depicts done
  | get key =>
    obtain ⟨outcome, done, -, events, after⟩ := get_depicts depicts key
    simp only [Op.marks, Op.report, done, ok_bind]
    exact told_events events after upkept
  | getEntry key =>
    obtain ⟨outcome, done, -, events, after⟩ := getEntry_depicts depicts key
    simp only [Op.marks, Op.report, done, ok_bind]
    exact told_events events after upkept
  | replace key value =>
    obtain ⟨outcome, done, -, events, after⟩ := replace_depicts depicts key value
    simp only [Op.marks, Op.report, done, ok_bind]
    have moves := upkept.trans (Plain.Moves.replace _ key value)
    rw [List.append_nil] at moves
    exact told_events events after moves
  | contains key =>
    obtain ⟨outcome, done, -, events, after⟩ := contains_depicts depicts key
    simp only [Op.marks, Op.report, done, ok_bind]
    exact told_events events after upkept
  | peek key =>
    simp only [Op.marks, Op.report, peek_depicts depicts, ok_bind]
    exact told_events rfl depicts (Plain.Moves.still p)
  | remove key =>
    obtain ⟨upkept, home, outcome, kept, found, done, told⟩ := remove_told depicts key
    simp only [Op.report, Op.marks, kept, found, done, ok_bind]
    exact told
  | erase key =>
    obtain ⟨upkept, home, outcome, kept, found, done, told⟩ := remove_told depicts key
    simp only [Op.report, Op.marks, erase, kept, found, done, ok_bind]
    exact told
  | count => exact told_events rfl depicts (Plain.Moves.still p)
  | extend pairs =>
    rw [← bind_pure (Op.marks _ map)]
    exact matching_bind (extend_told depicts pairs) fun _ _ told => told
  | ofList pairs =>
    have start : Depicts (build {} p.hash : ChainMap K V)
        (Plain.blank ({} : Config).rounded p.hash) := build_depicts Config.default_valid p.hash
    have moves := Plain.Moves.empty p Config.default_valid
    simp only [Op.report, Op.marks, ChainMap.ofList, hash_depicts depicts]
    apply matching_bind (extend_told start pairs)
    intro done told later
    have first : [Mark.emptied].filterMap Mark.event? = [] := rfl
    exact told_trans moves first later
  | clear =>
    obtain ⟨next, done, after⟩ := clear_depicts depicts
    obtain ⟨given, valid, rounded⟩ := depicts.tidy.config
    rw [Plain.clear_blank rounded] at after
    have moves := Plain.Moves.empty p valid
    simp only [Op.report, Op.marks, done, ok_bind]
    exact Told.mk rfl rfl ⟨_, after, moves⟩
  | rehash buckets =>
    obtain ⟨outcome, done, -, events, after⟩ := rehash_depicts depicts buckets
    simp only [Op.marks, Op.report, done, ok_bind]
    exact told_events events after (Plain.rehash_moves p buckets)
  | settle =>
    obtain ⟨outcome, done, events, after⟩ := settle_depicts depicts
    simp only [Op.marks, Op.report, done, ok_bind]
    exact told_events events after settled
  | toList =>
    obtain ⟨outcome, done, -, events, after⟩ := toList_depicts depicts
    simp only [Op.marks, Op.report, done, ok_bind]
    exact told_events events after settled
  | keys =>
    obtain ⟨outcome, done, -, events, after⟩ := toList_depicts depicts
    simp only [Op.marks, Op.report, keys, done, ok_bind]
    exact told_events events after settled
  | values =>
    obtain ⟨outcome, done, -, events, after⟩ := toList_depicts depicts
    simp only [Op.marks, Op.report, values, done, ok_bind]
    exact told_events events after settled
  | copy => exact told_events rfl (copy_depicts depicts) (Plain.Moves.still p)

theorem ops_told (depicts : Depicts map p) (ops : List (Op K V)) :
    Matching (fun results told =>
        Told p (results.1.map (·.2)).flatten results.2 (told.1.flatten, told.2))
      (runAll Op.report ops map) (runAll Op.marks ops map) := by
  induction ops generalizing map p with
  | nil => exact ⟨rfl, rfl, p, depicts, Plain.Moves.still p⟩
  | cons op ops ih =>
    apply matching_bind (op_told depicts op)
    rintro ⟨⟨answer, events⟩, next⟩ ⟨marks, told⟩ ⟨rfl, same, q, after, moves⟩
    apply matching_bind (ih after)
    intro others rest later
    exact told_trans moves same later

end MemIndex.ChainMap
