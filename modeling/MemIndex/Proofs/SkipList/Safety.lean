import MemIndex.Proofs.SkipList.History
import MemIndex.Proofs.SkipList.Removing
import MemIndex.Proofs.SkipList.Seeking
import MemIndex.Proofs.SkipList.Starting

/- Nothing that can be asked of a skip list and of the runs read from it ends in a fault, but for
   want of room in the store. This does not depend on the comparison of keys: it may answer
   anything, as long as it answers. -/
namespace MemIndex.SkipList

variable {K V γ : Type}

inductive Query (K : Type) where
  | isEmpty
  | first
  | last
  | get (key : K)
  | contains (key : K)
  | rank (key : K)
  | atRank (place : Nat)
  | lowerBound (key : K)
  | upperBound (key : K)
  | firstInRange (low high : K)
  | lastInRange (low high : K)

/-- A list and the runs that have been begun on it, which read it as it was then. -/
structure Session (K V γ : Type) where
  list : SkipList K V γ
  runs : List (Run K V)

def Session.begin (config : Config) (draws : γ) : Session K V γ := ⟨build config draws, []⟩

inductive Turn (K V : Type) where
  | operate (op : Op K V)
  | ask (query : Query K)
  | iterate
  | range (low high : K)
  | fork (number : Nat)
  | next (number : Nat)
  | nextBack (number : Nat)

inductive Reply (K V : Type) where
  | plain (answer : Answer K V)
  | value (found : Option V)

section Running

def Session.enter (session : Session K V γ) (begun : Except Fault (Run K V)) :
    Except Fault (Reply K V × Session K V γ) := do
  let run ← begun
  return (.plain .done, { session with runs := session.runs ++ [run] })

def Session.advance (session : Session K V γ) (number : Nat)
    (step : Run K V → Except Fault (Option (K × V) × Run K V)) :
    Except Fault (Reply K V × Session K V γ) :=
  match session.runs[number]? with
  | none => .ok (.plain .done, session)
  | some run => do
    let (entry, run) ← step run
    return (.plain (.entry entry), { session with runs := session.runs.set number run })

variable [Ord K]

def Query.run (list : SkipList K V γ) : Query K → Except Fault (Reply K V)
  | .isEmpty => return .plain (.truth list.isEmpty)
  | .first => do return .plain (.entry (← list.first))
  | .last => do return .plain (.entry (← list.last))
  | .get key => do return .value (← list.get key)
  | .contains key => do return .plain (.truth (← list.contains key))
  | .rank key => do return .plain (.count (← list.rank key))
  | .atRank place => do return .plain (.entry (← list.atRank place))
  | .lowerBound key => do return .plain (.entry (← list.lowerBound key))
  | .upperBound key => do return .plain (.entry (← list.upperBound key))
  | .firstInRange low high => do return .plain (.entry (← list.firstInRange low high))
  | .lastInRange low high => do return .plain (.entry (← list.lastInRange low high))

def Turn.run [DrawSource γ] : Turn K V → Session K V γ →
    Except Fault (Reply K V × Session K V γ)
  | .operate op, session => do
    let (answer, list) ← op.run session.list
    return (.plain answer, { session with list })
  | .ask query, session => do return (← query.run session.list, session)
  | .iterate, session => session.enter session.list.run
  | .range low high, session => session.enter (session.list.range low high)
  | .fork number, session =>
    return (.plain .done, { session with runs := session.runs ++ session.runs[number]?.toList })
  | .next number, session => session.advance number Run.next
  | .nextBack number, session => session.advance number Run.nextBack

end Running

def Op.insertions : Op K V → Nat
  | .insert _ _ => 1
  | .extend entries => entries.length
  | _ => 0

def Turn.insertions : Turn K V → Nat
  | .operate op => op.insertions
  | _ => 0

def Scarce (insertions : Nat) : Prop := Arena.maxSlots < insertions + 2

def Holds (insertions : Nat) (list : SkipList K V γ) : Prop :=
  ∃ items, Laid list items ∧ items.length ≤ insertions

theorem scarce_later (m n : Nat) (le : m ≤ n) (scarce : Scarce m) : Scarce n := by
  unfold Scarce at scarce ⊢
  omega

namespace Run

def Steady (run : Run K V) : Prop :=
  run.remaining = 0 ∨
    ∃ level maxLevels before middle after, run.Stands level maxLevels before middle after

variable {run : Run K V}

theorem pending_of_steady (steady : run.Steady) : ∃ entries, run.Pending entries := by
  rcases steady with none | ⟨level, maxLevels, before, middle, after, stands⟩
  · exact ⟨[], .ended none⟩
  · exact ⟨_, .standing stands⟩

theorem steady_of_pending {entries : List (K × V)} (pending : run.Pending entries) :
    run.Steady := by
  cases pending with
  | ended none => exact Or.inl none
  | standing stands => exact Or.inr ⟨_, _, _, _, _, stands⟩

theorem next_steady (steady : run.Steady) :
    ∃ entry later, run.next = .ok (entry, later) ∧ later.Steady := by
  obtain ⟨entries, pending⟩ := pending_of_steady steady
  obtain ⟨later, stepped, rest⟩ := next_pending pending
  exact ⟨_, later, stepped, steady_of_pending rest⟩

theorem nextBack_steady (steady : run.Steady) :
    ∃ entry later, run.nextBack = .ok (entry, later) ∧ later.Steady := by
  obtain ⟨entries, pending⟩ := pending_of_steady steady
  obtain ⟨later, stepped, rest⟩ := nextBack_pending pending
  exact ⟨_, later, stepped, steady_of_pending rest⟩

end Run

section Lists

variable [Ord K] {list : SkipList K V γ} {items : List (Item K V)} {n : Nat}

theorem insert_safe [DrawSource γ] (holds : Holds n list) (key : K) (value : V) :
    Safe (Scarce (n + 1)) (fun outcome => Holds (n + 1) outcome.state) (list.insert key value) := by
  obtain ⟨items, laid, few⟩ := holds
  obtain ⟨front, back, path, rfl, way, -⟩ := way_somewhere laid fun k => (compare k key).isLE
  have size := laid.woven.size
  have limit := Arena.len_le_maxSlots laid.woven.sound
  by_cases room : list.nodes.len < Arena.maxSlots
  · obtain ⟨outcome, x, done, -, -, after⟩ := insert_ok laid value way room
    refine safe_ok done ⟨_, after, ?_⟩
    rw [List.length_append] at few
    rw [List.length_append, List.length_cons]
    omega
  · rw [insert_full laid value way (by omega)]
    refine ⟨rfl, ?_⟩
    unfold Scarce
    omega

theorem extend_safe [DrawSource γ] (holds : Holds n list) (entries : List (K × V)) :
    Safe (Scarce (n + entries.length)) (fun outcome => Holds (n + entries.length) outcome.state)
      (list.extend entries) := by
  induction entries generalizing list n with
  | nil => exact holds
  | cons entry rest ih =>
    rw [List.length_cons, Nat.add_comm rest.length, ← Nat.add_assoc, extend]
    apply safe_bind (insert_safe holds entry.1 entry.2) (scarce_later _ _ (Nat.le_add_right _ _))
    intro one after
    exact safe_bind (ih after) id fun _ final => final

theorem remove_safe (holds : Holds n list) (key : K) :
    ∃ outcome, list.remove key = .ok outcome ∧ Holds n outcome.state := by
  obtain ⟨items, laid, few⟩ := holds
  obtain ⟨front, back, path, rfl, way, -⟩ := way_somewhere laid fun k => (compare k key).isLT
  by_cases found : ∃ x rest, back = x :: rest ∧ compare x.entry.1 key = .eq
  · obtain ⟨x, rest, rfl, equal⟩ := found
    obtain ⟨outcome, done, -, after⟩ := remove_ok way laid equal
    refine ⟨outcome, done, _, after, ?_⟩
    rw [List.length_append, List.length_cons] at few
    rw [List.length_append]
    omega
  · refine ⟨_, remove_absent way laid ?_, _, laid, few⟩
    intro x rest parts
    rw [Ordering.isNe_iff_ne_eq]
    intro equal
    exact found ⟨x, rest, parts, equal⟩

theorem op_safe [DrawSource γ] (holds : Holds n list) (op : Op K V) :
    Safe (Scarce (n + op.insertions)) (fun result => Holds (n + op.insertions) result.2)
      (op.run list) := by
  cases op with
  | insert key value => exact safe_bind (insert_safe holds key value) id fun _ after => after
  | remove key =>
    obtain ⟨outcome, done, after⟩ := remove_safe holds key
    simp only [Op.run, done, ok_bind]
    exact after
  | erase key =>
    obtain ⟨outcome, done, after⟩ := remove_safe holds key
    simp only [Op.run, erase, done, ok_bind]
    exact after
  | extend entries => exact safe_bind (extend_safe holds entries) id fun _ after => after
  | clear =>
    obtain ⟨items, laid, -⟩ := holds
    exact ⟨[], clear_laid laid, Nat.zero_le _⟩
  | copy =>
    obtain ⟨items, laid, few⟩ := holds
    exact ⟨items, copy_laid laid, few⟩
  | count => exact holds
  | toList =>
    obtain ⟨items, laid, few⟩ := holds
    simp only [Op.run, toList_laid laid, ok_bind]
    exact ⟨items, laid, few⟩
  | toListBack =>
    obtain ⟨items, laid, few⟩ := holds
    simp only [Op.run, toListBack_laid laid, ok_bind]
    exact ⟨items, laid, few⟩

theorem query_safe (laid : Laid list items) (query : Query K) :
    ∃ reply, query.run list = .ok reply := by
  cases query with
  | isEmpty => exact ⟨_, rfl⟩
  | first => exact ⟨_, by rw [Query.run, first_ok laid]; rfl⟩
  | last => exact ⟨_, by rw [Query.run, last_ok laid]; rfl⟩
  | get key =>
    obtain ⟨front, back, path, rfl, way, -⟩ := way_somewhere laid fun k => (compare k key).isLT
    exact ⟨_, by rw [Query.run, get_ok laid way]; rfl⟩
  | contains key =>
    obtain ⟨front, back, path, rfl, way, -⟩ := way_somewhere laid fun k => (compare k key).isLT
    exact ⟨_, by rw [Query.run, contains, get_ok laid way]; rfl⟩
  | rank key =>
    obtain ⟨front, back, path, rfl, way, -⟩ := way_somewhere laid fun k => (compare k key).isLT
    exact ⟨_, by rw [Query.run, rank_ok laid way]; rfl⟩
  | atRank place => exact ⟨_, by rw [Query.run, atRank_ok laid]; rfl⟩
  | lowerBound key =>
    obtain ⟨front, back, path, rfl, way, -⟩ := way_somewhere laid fun k => (compare k key).isLT
    exact ⟨_, by rw [Query.run, lowerBound_ok laid way]; rfl⟩
  | upperBound key =>
    obtain ⟨front, back, path, rfl, way, -⟩ := way_somewhere laid fun k => (compare k key).isLE
    exact ⟨_, by rw [Query.run, upperBound_ok laid way]; rfl⟩
  | firstInRange low high =>
    obtain ⟨front, back, path, rfl, way, -⟩ := way_somewhere laid fun k => (compare k low).isLT
    exact ⟨_, by rw [Query.run, firstInRange_ok laid way]; rfl⟩
  | lastInRange low high =>
    obtain ⟨front, back, path, rfl, way, -⟩ := way_somewhere laid fun k => (compare k high).isLE
    exact ⟨_, by rw [Query.run, lastInRange_ok laid way]; rfl⟩

/-- If the comparison contradicts itself, the back may lie in front of the front. Then nothing is
left to read. -/
theorem range_safe (laid : Laid list items) (low high : K) :
    ∃ run, list.range low high = .ok run ∧ run.Steady := by
  cases reached : reaches low high items with
  | false => exact ⟨_, range_outside laid reached, Or.inl rfl⟩
  | true =>
    obtain ⟨front, back, path, parts, first, -⟩ :=
      way_somewhere laid fun k => (compare k low).isLT
    obtain ⟨before, after, other, again, second, -⟩ :=
      way_somewhere laid fun k => (compare k high).isLE
    refine ⟨_, range_ok parts.symm again.symm laid reached first second, ?_⟩
    rcases List.append_eq_append_iff.mp (parts.symm.trans again) with
      ⟨middle, rfl, rfl⟩ | ⟨middle, rfl, -⟩
    · refine Or.inr ⟨list.level, list.maxLevels, front, middle, after, ?_, rfl, rfl, ?_⟩
      · rw [List.append_assoc, ← parts]
        exact laid.woven
      · simp
    · left
      simp

end Lists

section Sessions

structure Session.Sound (insertions : Nat) (session : Session K V γ) : Prop where
  list : Holds insertions session.list
  runs : ∀ run ∈ session.runs, run.Steady

variable {session : Session K V γ} {n : Nat}

theorem begin_sound {config : Config} (valid : config.Valid) (draws : γ) :
    Session.Sound 0 (Session.begin config draws : Session K V γ) := by
  refine ⟨⟨[], build_laid valid draws, Nat.le_refl _⟩, ?_⟩
  intro run member
  cases member

theorem enter_safe (sound : session.Sound n) {begun : Except Fault (Run K V)}
    (well : ∃ run, begun = .ok run ∧ run.Steady) :
    Safe (Scarce n) (fun result => Session.Sound n result.2) (session.enter begun) := by
  obtain ⟨run, rfl, steady⟩ := well
  refine ⟨sound.list, ?_⟩
  intro other member
  rcases List.mem_append.mp member with old | new
  · exact sound.runs other old
  · rw [List.mem_singleton.mp new]
    exact steady

theorem advance_safe (sound : session.Sound n) (number : Nat)
    {step : Run K V → Except Fault (Option (K × V) × Run K V)}
    (steps : ∀ run : Run K V, run.Steady →
      ∃ entry later, step run = .ok (entry, later) ∧ later.Steady) :
    Safe (Scarce n) (fun result => Session.Sound n result.2) (session.advance number step) := by
  unfold Session.advance
  cases found : session.runs[number]? with
  | none => exact sound
  | some run =>
    obtain ⟨entry, later, done, steady⟩ := steps run (sound.runs run (List.mem_of_getElem? found))
    simp only [done, ok_bind]
    refine ⟨sound.list, ?_⟩
    intro other member
    rcases List.mem_or_eq_of_mem_set member with old | rfl
    · exact sound.runs other old
    · exact steady

variable [Ord K]

theorem turn_safe [DrawSource γ] (turn : Turn K V) (n : Nat) (session : Session K V γ)
    (sound : session.Sound n) : Safe (Scarce (n + turn.insertions))
      (fun result => result.2.Sound (n + turn.insertions)) (turn.run session) := by
  obtain ⟨items, laid, few⟩ := sound.list
  cases turn with
  | operate op => exact safe_bind (op_safe sound.list op) id fun _ after => ⟨after, sound.runs⟩
  | ask query =>
    obtain ⟨reply, done⟩ := query_safe laid query
    simp only [Turn.run, done, ok_bind]
    exact sound
  | iterate =>
    obtain ⟨run, begun, stands⟩ := run_ok laid
    exact enter_safe sound ⟨run, begun, Or.inr ⟨_, _, _, _, _, stands⟩⟩
  | range low high => exact enter_safe sound (range_safe laid low high)
  | fork number =>
    refine ⟨sound.list, ?_⟩
    intro run member
    rcases List.mem_append.mp member with old | new
    · exact sound.runs run old
    · exact sound.runs run (List.mem_of_getElem? (Option.mem_toList.mp new))
  | next number => exact advance_safe sound number fun _ => Run.next_steady
  | nextBack number => exact advance_safe sound number fun _ => Run.nextBack_steady

/-- With any accepted settings, any draws and any comparison of keys, all turns end well, and the
levels in use stay below the limit for paths. Only the store may run out of slots, after as many
insertions as it has room for. -/
theorem turns_safe [DrawSource γ] {config : Config} (valid : config.Valid) (draws : γ)
    (turns : List (Turn K V)) :
    (∃ result, runAll Turn.run turns (Session.begin config draws) = .ok result ∧
      result.2.list.level < levelLimit) ∨
    (runAll Turn.run turns (Session.begin config draws) = .error .exhausted ∧
      Arena.maxSlots < (turns.map Turn.insertions).sum + 2) := by
  have safe := runAll_safe scarce_later turn_safe turns (begin_sound valid draws)
  rw [Nat.zero_add] at safe
  rcases safe_cases safe with ⟨result, done, sound⟩ | failed
  · obtain ⟨items, laid, -⟩ := sound.list
    exact Or.inl ⟨result, done, Nat.lt_of_lt_of_le laid.room laid.limit⟩
  · exact Or.inr failed

/-- Two runs are read while the list is changed beside them. -/
def visits : List (Turn Nat Nat) :=
  [.operate (.insert 5 50), .operate (.insert 3 30), .operate (.insert 5 51), .iterate,
    .ask (.atRank 2), .operate (.remove 5), .next 0, .nextBack 0, .range 4 6, .nextBack 1,
    .ask (.rank 5)]

theorem turns_safe_words :
    (runAll Turn.run visits (Session.begin {} (Xoshiro.ofSeed 118))).map (·.2.list.level) = .ok 2 ∧
      ∃ result, runAll Turn.run visits (Session.begin {} (Xoshiro.ofSeed 118)) = .ok result ∧
        result.2.list.level < levelLimit := by
  have outline : (runAll Turn.run visits (Session.begin {} (Xoshiro.ofSeed 118))).map
      (·.2.list.level) = .ok 2 := by decide +kernel
  rcases turns_safe Config.default_valid (Xoshiro.ofSeed 118) visits with ended | ⟨-, many⟩
  · exact ⟨outline, ended⟩
  · exact absurd many (by decide)

end Sessions

end MemIndex.SkipList
