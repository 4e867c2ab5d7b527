import MemIndex.Proofs.ChainMap.Dictionaries
import MemIndex.Proofs.ChainMap.Safety

/- A pass over a map that changes on the way. Between two calls the map may be put through any
   operations, resizes in both directions included; what is there all the time is read. -/
namespace MemIndex.ChainMap

open Cursor

variable {K V : Type}

inductive Turn (K V : Type) where
  | call
  | operate (op : Op K V)

def Turn.insertions : Turn K V → Nat
  | .call => 0
  | .operate op => op.insertions

/-- What a map holds and what the turns to come may insert comes to no more than a total. -/
def Within (total : Nat) (rest : List (Turn K V)) (map : ChainMap K V) : Prop :=
  ∃ n, Modest n map ∧ n + (rest.map Turn.insertions).sum ≤ total

section Room

variable {map : ChainMap K V} {rest : List (Turn K V)} {total : Nat}

theorem within_all {p : Plain K V} (depicts : Depicts map p) (turns : List (Turn K V)) :
    Within (map.len + (turns.map Turn.insertions).sum) turns map :=
  ⟨map.len, ⟨p, depicts, (len_depicts depicts).ge⟩, Nat.le_refl _⟩

theorem within_call (within : Within total (.call :: rest) map) : Within total rest map := by
  obtain ⟨n, modest, enough⟩ := within
  rw [List.map_cons, List.sum_cons, Turn.insertions, Nat.zero_add] at enough
  exact ⟨n, modest, enough⟩

theorem operate_safe [BEq K] {op : Op K V} (within : Within total (.operate op :: rest) map) :
    Safe (Scarce total) (fun result => Within total rest result.2) (op.run map) := by
  obtain ⟨n, modest, enough⟩ := within
  rw [List.map_cons, List.sum_cons, Turn.insertions, ← Nat.add_assoc] at enough
  have less := scarce_later _ _ (Nat.le_trans (Nat.le_add_right _ _) enough)
  exact safe_imp (op_safe modest op) less fun result after => ⟨_, after, enough⟩

end Room

variable [BEq K]

structure Pass (K V : Type) where
  map : ChainMap K V
  moments : List (ChainMap K V)
  cursor : UInt64
  read : List (K × V)

def Pass.turn (pass : Pass K V) : Turn K V → Except Fault (Pass K V)
  | .call => do
    let (cursor, batch) ← pass.map.scan pass.cursor
    return { pass with cursor, read := pass.read ++ batch }
  | .operate op => do
    let (_, map) ← op.run pass.map
    return { pass with map, moments := map :: pass.moments }

def Pass.start (map : ChainMap K V) : Except Fault (Pass K V) :=
  Pass.turn ⟨map, [map], 0, []⟩ .call

def Pass.run (map : ChainMap K V) (turns : List (Turn K V)) : Except Fault (Pass K V) := do
  turns.foldlM Pass.turn (← Pass.start map)

def Present (key : K) (map : ChainMap K V) : Prop := ∃ value, map.peek key = .ok (some value)

/-- A cursor has left this key behind. After the last call of a pass all keys are. -/
def Behind (hash : K → UInt64) (cursor : UInt64) (key : K) : Prop :=
  cursor = 0 ∨ position (hash key) < position cursor

/-- What a pass has left behind was reported, if it was there all the time. -/
structure Pass.Complete (hash : K → UInt64) (pass : Pass K V) : Prop where
  mirrors : ∃ dict, Mirrors hash pass.map dict
  now : pass.map ∈ pass.moments
  reported : ∀ key, (∀ moment ∈ pass.moments, Present key moment) →
    Behind hash pass.cursor key → ∃ pair ∈ pass.read, (pair.1 == key) = true

variable [EquivBEq K] {hash : K → UInt64} (respects : Respects hash)

include respects

theorem call_reads {map : ChainMap K V} {dict : Dictionary K V} (mirrors : Mirrors hash map dict)
    (cursor : UInt64) : ∃ next batch, map.scan cursor = .ok (next, batch) ∧
      ∀ key, Present key map → position cursor ≤ position (hash key) → Behind hash next key →
        ∃ pair ∈ batch, (pair.1 == key) = true := by
  obtain ⟨p, depicts, carries⟩ := mirrors
  refine ⟨_, _, scan_refines depicts.represents depicts.tidy cursor,
    fun key present ahead behind => ?_⟩
  obtain ⟨value, held⟩ := present
  have mirrors : Mirrors hash map dict := ⟨p, depicts, carries⟩
  rw [peek_mirrors respects mirrors] at held
  obtain ⟨pair, found, -⟩ := Option.map_eq_some_iff.mp (Except.ok.inj held)
  have matched : (pair.1 == key) = true :=
    List.find?_some (p := fun x : K × V => x.1 == key) found
  have member : pair ∈ p.entries := carries.perm.mem_iff.mpr (List.mem_of_find?_eq_some found)
  have same : hash pair.1 = hash key := respects _ _ matched
  refine ⟨pair, scan_reads depicts.tidy member ?_ ?_, matched⟩
  · rw [carries.hash, same]
    exact ahead
  · rw [carries.hash, same]
    exact behind

theorem start_complete {map : ChainMap K V} {dict : Dictionary K V}
    (mirrors : Mirrors hash map dict) :
    ∃ pass, Pass.start map = .ok pass ∧ pass.Complete hash ∧ pass.map = map := by
  obtain ⟨next, batch, called, reads⟩ := call_reads respects mirrors 0
  refine ⟨⟨map, [map], next, batch⟩, ?_, ⟨⟨dict, mirrors⟩, List.mem_singleton_self map, ?_⟩, rfl⟩
  · simp [Pass.start, Pass.turn, called]
  · intro key always behind
    have first : position 0 ≤ position (hash key) := by simp
    exact reads key (always map (List.mem_singleton_self map)) first behind

/-- What is behind the next cursor was behind the last one, or is read by the call between. -/
theorem turn_complete {total : Nat} (turn : Turn K V) (rest : List (Turn K V)) (pass : Pass K V)
    (good : pass.Complete hash ∧ Within total (turn :: rest) pass.map) :
    Safe (Scarce total) (fun next => next.Complete hash ∧ Within total rest next.map)
      (pass.turn turn) := by
  obtain ⟨complete, within⟩ := good
  obtain ⟨dict, mirrors⟩ := complete.mirrors
  cases turn with
  | call =>
    obtain ⟨next, batch, called, reads⟩ := call_reads respects mirrors pass.cursor
    have turned : pass.turn .call = .ok { pass with cursor := next, read := pass.read ++ batch } := by
      simp [Pass.turn, called]
    refine safe_ok turned ⟨⟨⟨dict, mirrors⟩, complete.now, ?_⟩, within_call within⟩
    intro key always behind
    by_cases before : Behind hash pass.cursor key
    · obtain ⟨pair, member, matched⟩ := complete.reported key always before
      exact ⟨pair, List.mem_append_left _ member, matched⟩
    · have ahead : position pass.cursor ≤ position (hash key) := by
        unfold Behind at before
        omega
      obtain ⟨pair, member, matched⟩ := reads key (always _ complete.now) ahead behind
      exact ⟨pair, List.mem_append_right _ member, matched⟩
  | operate op =>
    apply safe_bind (safe_done (operate_safe within)) id
    rintro ⟨answer, map⟩ ⟨ran, left⟩
    refine ⟨⟨op_mirrors respects mirrors ran, List.mem_cons_self, ?_⟩, left⟩
    intro key always behind
    exact complete.reported key
      (fun moment member => always moment (List.mem_cons_of_mem _ member)) behind

/-- Whatever is done to a map between the calls of a pass, a key that is there from the first call
on is reported by the time the cursor has left it behind, so by the end of the pass. A pass only
breaks off when the store is out of slots, after more insertions than it has room for. -/
theorem pass_reports_present_keys {map : ChainMap K V} (reachable : Reachable hash map)
    (turns : List (Turn K V)) :
    (∃ pass, Pass.run map turns = .ok pass ∧
        ∀ key, (∀ moment ∈ pass.moments, Present key moment) → Behind hash pass.cursor key →
          ∃ pair ∈ pass.read, (pair.1 == key) = true) ∨
      (Pass.run map turns = .error .exhausted ∧
        Arena.maxSlots < map.len + (turns.map Turn.insertions).sum) := by
  obtain ⟨dict, p, depicts, carries⟩ := reachable_mirrors respects reachable
  obtain ⟨first, started, complete, same⟩ := start_complete respects ⟨p, depicts, carries⟩
  have within := within_all depicts turns
  unfold Pass.run
  rw [started, ok_bind]
  have safe := @foldlM_safe _ _ Pass.turn _
    (fun rest pass => pass.Complete hash ∧ Within _ rest pass.map) (turn_complete respects) turns
    first ⟨complete, by rwa [same]⟩
  rcases safe_cases safe with ⟨last, done, after, -⟩ | failed
  · exact Or.inl ⟨last, done, after.reported⟩
  · exact Or.inr failed

/-- A resize that begins, goes on and ends between the calls of a pass. -/
def growing : List (Turn UInt64 Nat) :=
  [.operate (.insert 6 60), .call, .operate (.get 3), .call, .operate (.remove 2),
    .operate (.get 3), .call, .call]

omit respects in
theorem pass_reports_present_words : ∃ map : ChainMap UInt64 Nat,
    Op.run (.extend [(1, 10), (2, 20), (3, 30), (4, 40), (5, 50)])
        (build { pace := .fixed 1 } id) = .ok (.done, map) ∧
      ∃ pass, Pass.run map growing = .ok pass ∧ pass.cursor = 0 ∧
        pass.moments.map isResizing = [false, true, true, true, false] ∧
        (∀ moment ∈ pass.moments, Present 3 moment) ∧
        ∃ pair ∈ pass.read, (pair.1 == 3) = true := by
  have respects : Respects (id : UInt64 → UInt64) := fun a b same => by rw [eq_of_beq same]
  have start : Reachable id (build { pace := .fixed 1 } id : ChainMap UInt64 Nat) :=
    build_reachable Config.single_valid id
  have filled : ∃ map : ChainMap UInt64 Nat,
      Op.run (.extend [(1, 10), (2, 20), (3, 30), (4, 40), (5, 50)])
          (build { pace := .fixed 1 } id) = .ok (.done, map) ∧ map.len = 5 ∧
        (Pass.run map growing).map (fun pass =>
            (pass.cursor, pass.moments.map isResizing, pass.moments.map (·.peek 3))) =
          .ok (0, [false, true, true, true, false], List.replicate 5 (.ok (some 30))) :=
    ⟨_, rfl, rfl, by decide +kernel⟩
  obtain ⟨map, ran, len, outline⟩ := filled
  rcases pass_reports_present_keys respects (start.step ran) growing with
    ⟨pass, passed, reported⟩ | ⟨-, short⟩
  · rw [passed] at outline
    obtain ⟨returned, phases, held⟩ : pass.cursor = 0 ∧
        pass.moments.map isResizing = [false, true, true, true, false] ∧
        pass.moments.map (·.peek 3) = List.replicate 5 (.ok (some 30)) := by
      simpa [Except.map] using outline
    have present : ∀ moment ∈ pass.moments, Present 3 moment := by
      intro moment member
      have among := List.mem_map_of_mem (f := (·.peek 3)) member
      rw [held] at among
      exact ⟨30, List.eq_of_mem_replicate among⟩
    exact ⟨map, ran, pass, passed, returned, phases, present, reported 3 present (Or.inl returned)⟩
  · rw [len] at short
    exact absurd short (by decide)

end MemIndex.ChainMap
