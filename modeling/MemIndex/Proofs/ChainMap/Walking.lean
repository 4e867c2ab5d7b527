import MemIndex.ChainMap.Walk
import MemIndex.Proofs.ChainMap.Resizing

/- Walking through a table reads its pairs, bucket by bucket. What a walk still has to read is the
   rest of the chain it is in and the buckets after it, and its counter counts just that. -/
namespace MemIndex.ChainMap

variable {K V : Type}

namespace Walk

/-- A walk over these tables that still has to read these pairs. -/
structure Stands (walk : Walk K V) (rows : Rows (Placed K V)) (pending : List (Placed K V)) :
    Prop where
  heads : walk.heads.toList = rows.map chainHead
  held : ∀ bucket, Holds walk.store.get? (rows.row bucket) none
  ahead : ∃ chain, Holds walk.store.get? chain none ∧ walk.chain = chainHead chain ∧
    pending = chain ++ (rows.drop walk.bucket).flatten
  counted : walk.remaining = pending.length

variable {rows : Rows (Placed K V)}

theorem firstSlot_ok {heads : Array (Option Nat)} (laid : heads.toList = rows.map chainHead)
    {count bucket : Nat} (rest : bucket + count = rows.length) {x : Placed K V}
    {pending : List (Placed K V)} (ahead : (rows.drop bucket).flatten = x :: pending) :
    ∃ after others, firstSlot heads count bucket = some (x.1, after + 1) ∧
      rows.row after = x :: others ∧ pending = others ++ (rows.drop (after + 1)).flatten := by
  induction count generalizing bucket with
  | zero =>
    rw [List.drop_of_length_le (by omega)] at ahead
    cases ahead
  | succ count ih =>
    have inside : bucket < rows.length := by omega
    have here : heads[bucket]? = some (chainHead (rows.row bucket)) := by
      rw [← Array.getElem?_toList, laid, List.getElem?_map, Rows.getElem?_of_lt inside]
      rfl
    have opened : rows.drop bucket = rows.row bucket :: rows.drop (bucket + 1) := by
      rw [List.drop_eq_getElem_cons inside]
      simp [Rows.row, inside]
    rw [opened, List.flatten_cons] at ahead
    cases row : rows.row bucket with
    | nil =>
      rw [row, List.nil_append] at ahead
      obtain ⟨after, others, found, rest⟩ := ih (by omega) ahead
      refine ⟨after, others, ?_, rest⟩
      simp [firstSlot, here, row, chainHead, found]
    | cons first others =>
      rw [row, List.cons_append] at ahead
      cases ahead
      refine ⟨bucket, others, ?_, row, rfl⟩
      simp [firstSlot, here, row, chainHead]

theorem position?_ok {walk : Walk K V} {x : Placed K V} {pending : List (Placed K V)}
    (stands : walk.Stands rows (x :: pending)) :
    ∃ bucket others, walk.position? = some (x.1, bucket) ∧
      Holds walk.store.get? (x :: others) none ∧
      pending = others ++ (rows.drop bucket).flatten := by
  obtain ⟨chain, holds, link, parts⟩ := stands.ahead
  cases chain with
  | cons first others =>
    rw [List.cons_append] at parts
    cases parts
    refine ⟨walk.bucket, others, ?_, holds, rfl⟩
    simp [position?, link, chainHead]
  | nil =>
    rw [List.nil_append] at parts
    have inside : walk.bucket < rows.length := by
      by_contra beyond
      rw [List.drop_of_length_le (Nat.le_of_not_lt beyond)] at parts
      cases parts
    have size : walk.heads.size = rows.length := by
      simpa using congrArg List.length stands.heads
    obtain ⟨after, others, found, row, rest⟩ :=
      @firstSlot_ok _ _ rows _ stands.heads (rows.length - walk.bucket) _ (by omega) _ _ parts.symm
    refine ⟨after + 1, others, ?_, ?_, rest⟩
    · simp [position?, link, chainHead, size, found]
    · rw [← row]
      exact stands.held after

theorem next_ok {walk : Walk K V} {x : Placed K V} {pending : List (Placed K V)}
    (stands : walk.Stands rows (x :: pending)) :
    ∃ after, walk.next = .ok (some x.2, after) ∧ after.Stands rows pending := by
  obtain ⟨bucket, others, found, holds, rest⟩ := position?_ok stands
  obtain ⟨slot, key, value⟩ := x
  obtain ⟨here, tail⟩ := holds_cons.mp holds
  have counted := stands.counted
  rw [List.length_cons] at counted
  have more : ¬ walk.remaining = 0 := by omega
  refine ⟨{ walk with bucket, chain := chainHead others, remaining := walk.remaining - 1 }, ?_,
    stands.heads, stands.held, ⟨others, tail, rfl, rest⟩, ?_⟩
  · unfold next
    rw [if_neg more, found]
    simp [Arena.read_ok here, Entry.pair]
  · change walk.remaining - 1 = pending.length
    omega

theorem take_ok {walk : Walk K V} {pending : List (Placed K V)}
    (stands : walk.Stands rows pending) (n : Nat) :
    ∃ after, walk.take n = .ok ((pending.take n).map (·.2), after) ∧
      after.Stands rows (pending.drop n) := by
  induction n generalizing walk pending with
  | zero => exact ⟨walk, rfl, stands⟩
  | succ n ih =>
    cases pending with
    | nil =>
      have ended : walk.remaining = 0 := stands.counted
      refine ⟨walk, ?_, stands⟩
      simp [take, next, ended]
    | cons x pending =>
      obtain ⟨mid, first, between⟩ := next_ok stands
      obtain ⟨after, rest, last⟩ := ih between
      refine ⟨after, ?_, last⟩
      simp [take, first, rest]

theorem ofTable_stands {store : Store K V} {table : Table} (lays : table.Lays store.get? rows)
    {remaining : Nat} (counted : remaining = rows.flatten.length) :
    (ofTable store table remaining).Stands rows rows.flatten :=
  ⟨lays.heads, lays.held, ⟨[], holds_nil, rfl, rfl⟩, counted⟩

theorem toList_stands {walk : Walk K V} {pending : List (Placed K V)}
    (stands : walk.Stands rows pending) : walk.toList = .ok (pending.map (·.2)) := by
  obtain ⟨after, all, -⟩ := take_ok stands walk.remaining
  have whole : pending.take walk.remaining = pending :=
    List.take_of_length_le (Nat.le_of_eq stands.counted.symm)
  unfold toList
  rw [all, ok_bind, whole]
  rfl

theorem toList_ok {store : Store K V} {table : Table} (lays : table.Lays store.get? rows)
    {remaining : Nat} (counted : remaining = rows.flatten.length) :
    (ofTable store table remaining).toList = .ok (rows.flatten.map (·.2)) :=
  toList_stands (ofTable_stands lays counted)

end Walk

variable {map : ChainMap K V}

theorem walk_stands {p : Plain K V} (represents : Represents map p) (tidy : p.Tidy) :
    ∃ outcome active, map.walk = .ok outcome ∧ outcome.events = p.settle.2 ∧
      outcome.answer.Stands active active.flatten ∧ active.mapEach (·.2) = p.settle.1.active ∧
      Represents outcome.state p.settle.1 := by
  obtain ⟨settled, done, events, after⟩ := settle_refines represents tidy
  have stable := Plain.settle_stable p
  obtain ⟨active, target, laid, same⟩ := after
  rw [← same] at stable ⊢
  have nothing := laid.targetLays
  cases phase : settled.state.phase with
  | resizing cursor table => simp [plainOf, phase] at stable
  | stable =>
    simp only [phase] at nothing
    subst nothing
    have counted : settled.state.len = active.flatten.length := by
      simpa [len] using laid.owns.len
    refine ⟨⟨.ofTable settled.state.store settled.state.active settled.state.len, settled.state,
      settled.events⟩, active, ?_, events, Walk.ofTable_stands laid.activeLays counted, rfl,
      active, [], laid, rfl⟩
    simp [walk, done]

theorem toList_refines {p : Plain K V} (represents : Represents map p) (tidy : p.Tidy) :
    ∃ outcome, map.toList = .ok outcome ∧ outcome.answer = p.settle.1.active.flatten ∧
      outcome.events = p.settle.2 ∧ Represents outcome.state p.settle.1 := by
  obtain ⟨walked, active, done, events, stands, rows, after⟩ := walk_stands represents tidy
  refine ⟨⟨active.flatten.map (·.2), walked.state, walked.events⟩, ?_, ?_, events, after⟩
  · simp [toList, done, Walk.toList_stands stands]
  · rw [← rows, Rows.flatten_mapEach]

end MemIndex.ChainMap
