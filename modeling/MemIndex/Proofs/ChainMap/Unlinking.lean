import Mathlib.Data.List.TakeWhile
import MemIndex.Proofs.ChainMap.Tables

/- Taking an entry out of its chain. What linked to it, the head of the bucket or the entry before
   it, links to what follows it afterwards, and the entry itself is still stored. -/
namespace MemIndex.ChainMap.Table

variable {K V : Type} {table : Table} {rows : Rows (Placed K V)} {store : Store K V}

structure Detached (table : Table) (rows : Rows (Placed K V)) (store : Store K V) (bucket : Nat)
    (chain : List (Placed K V)) (placed : Placed K V) (detached : Table) (next : Store K V) :
    Prop where
  sound : next.Sound
  len : next.len = store.len
  outside : ∀ other, other ∉ slotsOf (rows.row bucket) → next.get? other = store.get? other
  occupied : ∀ other, next.get? other = none ↔ store.get? other = none
  left : next.get? placed.1 = some ⟨placed.2.1, placed.2.2, none⟩
  lays : detached.Lays next.get? (rows.set bucket chain)
  counted : detached.len + 1 = table.len

section Unlinking

variable {before after : List (Placed K V)} {bucket slot : Nat} {entry : K × V}

theorem detached_first (sound : store.Sound) (lays : table.Lays store.get? rows)
    (distinct : rows.slots.Nodup) (row : rows.row bucket = (slot, entry) :: after)
    (counted : 0 < table.len) :
    ∃ next, store.modify slot ({ · with next := none }) = .ok next ∧
      Detached table rows store bucket after (slot, entry)
        { table.setHead bucket (chainHead after) with len := table.len - 1 } next := by
  have holds := lays.held bucket
  have rowDistinct := Rows.nodup_row distinct bucket
  rw [row] at holds rowDistinct
  obtain ⟨here, tail⟩ := holds_cons.mp holds
  obtain ⟨next, done, nextSound, view, len⟩ := Arena.modify_ok sound here ({ · with next := none })
  have outside : ∀ other, other ∉ slotsOf (rows.row bucket) →
      next.get? other = store.get? other := by
    intro other elsewhere
    rw [view, Function.update_of_ne]
    rintro rfl
    exact elsewhere (by simp [row, slotsOf])
  refine ⟨next, done, nextSound, len, outside, fun other => ?_, by simp [view], ?_, ?_⟩
  · by_cases same : other = slot
    · simp [view, same, here]
    · simp [view, same]
  · refine lays_set lays distinct (setHead_heads lays bucket after) ?_ fun other missed _ =>
      outside other missed
    rw [view]
    exact holds_update tail (List.nodup_cons.mp rowDistinct).1 _
  · change table.len - 1 + 1 = table.len
    omega

theorem detached_later (sound : store.Sound) (lays : table.Lays store.get? rows)
    (distinct : rows.slots.Nodup) {previous : Nat} {first : K × V}
    (row : rows.row bucket = before ++ (previous, first) :: (slot, entry) :: after)
    (counted : 0 < table.len) :
    ∃ mid next, store.modify previous ({ · with next := chainHead after }) = .ok mid ∧
      mid.modify slot ({ · with next := none }) = .ok next ∧
      Detached table rows store bucket (before ++ (previous, first) :: after) (slot, entry)
        { table with len := table.len - 1 } next := by
  have holds := lays.held bucket
  have rowDistinct := Rows.nodup_row distinct bucket
  rw [row] at holds rowDistinct
  obtain ⟨link, tail⟩ := holds_cons.mp (holds_append.mp holds).2
  obtain ⟨here, -⟩ := holds_cons.mp tail
  have apart : slot ≠ previous := by
    simp only [slotsOf, List.map_append, List.map_cons, List.nodup_append, List.nodup_cons,
      List.mem_cons, not_or] at rowDistinct
    exact fun same => rowDistinct.2.1.1.1 same.symm
  obtain ⟨mid, first_done, midSound, midView, midLen⟩ :=
    Arena.modify_ok sound link ({ · with next := chainHead after })
  have hereStill : mid.get? slot = some ⟨entry.1, entry.2, chainHead after⟩ := by
    rw [midView, Function.update_of_ne apart, here]
    simp
  obtain ⟨next, done, nextSound, view, len⟩ :=
    Arena.modify_ok midSound hereStill ({ · with next := none })
  have outside : ∀ other, other ∉ slotsOf (rows.row bucket) →
      next.get? other = store.get? other := by
    intro other elsewhere
    rw [view, midView, Function.update_of_ne, Function.update_of_ne]
    · rintro rfl
      exact elsewhere (by simp [row, slotsOf])
    · rintro rfl
      exact elsewhere (by simp [row, slotsOf])
  refine ⟨mid, next, first_done, done, nextSound, len.trans midLen, outside, fun other => ?_,
    by simp [view], ?_, ?_⟩
  · by_cases same : other = slot
    · simp [view, same, here]
    · by_cases before : other = previous
      · simp [view, midView, before, link, Ne.symm apart]
      · simp [view, midView, same, before]
  · refine lays_set lays distinct ?_ ?_ fun other missed _ => outside other missed
    · have unchanged : chainHead (before ++ (previous, first) :: after) =
          chainHead (rows.row bucket) := by
        rw [row]
        cases before <;> simp [chainHead]
      simp only [List.map_set, unchanged]
      rw [← List.map_set, Rows.set_row_self]
      exact lays.heads
    · rw [view, midView]
      exact holds_bypass holds rowDistinct _
  · change table.len - 1 + 1 = table.len
    omega

end Unlinking

variable [BEq K]

theorem threaded_mismatch {chain : List (Placed K V)} {key : K}
    (none : ∀ x ∈ chain, (x.2.1 == key) = false) (stop : Option Nat) :
    ∀ x ∈ threaded chain stop, (x.2.key != key) = true := by
  intro x member
  have inChain : (x.1, x.2.pair) ∈ chain := by
    rw [← threaded_pairs chain stop]
    exact List.mem_map_of_mem member
  simpa [bne, Entry.pair] using none _ inChain

/-- A chain parts at its first match: no entry before it matches, and the last one before it, if
any, links to it. -/
theorem threaded_split {before after : List (Placed K V)} {slot : Nat} {entry : K × V} {key : K}
    (matched : (entry.1 == key) = true) (skipped : ∀ x ∈ before, (x.2.1 == key) = false) :
    (threaded (before ++ (slot, entry) :: after) none).takeWhile (·.2.key != key) =
        threaded before (some slot) ∧
      (threaded (before ++ (slot, entry) :: after) none).dropWhile (·.2.key != key) =
        (slot, ⟨entry.1, entry.2, chainHead after⟩) :: threaded after none := by
  have pass := threaded_mismatch skipped (some slot)
  have parted : threaded (before ++ (slot, entry) :: after) none =
      threaded before (some slot) ++
        (slot, ⟨entry.1, entry.2, chainHead after⟩) :: threaded after none := by
    rw [threaded_append]
    simp [threaded, chainHead]
  rw [parted, List.takeWhile_append_of_pos pass, List.dropWhile_append_of_pos pass]
  simp [bne, matched]

theorem detach_none (lays : table.Lays store.get? rows) (positive : 0 < rows.length)
    (short : ∀ bucket, (rows.row bucket).length ≤ store.slots.size) {hash : UInt64} {key : K}
    (absent : (rows.row (bucketOf rows.length hash)).find? (·.2.1 == key) = none) :
    table.detach store hash key = .ok none := by
  let chain := rows.row (bucketOf rows.length hash)
  have pass := threaded_mismatch
    (fun x member => Bool.eq_false_iff.mpr (List.find?_eq_none.mp absent x member)) none
  have nothing : (threaded chain none).dropWhile (·.2.key != key) = [] :=
    List.dropWhile_eq_nil_iff.mpr pass
  simp only [detach, bucketFor_of_lays lays, chain_ok lays (bucketOf_lt positive hash) (short _),
    ok_bind]
  rw [nothing]
  rfl

theorem detach_ok (sound : store.Sound) (lays : table.Lays store.get? rows)
    (positive : 0 < rows.length) (distinct : rows.slots.Nodup)
    (short : ∀ bucket, (rows.row bucket).length ≤ store.slots.size) (counted : 0 < table.len)
    {hash : UInt64} {key : K} {slot : Nat} {entry : K × V}
    (found : (rows.row (bucketOf rows.length hash)).find? (·.2.1 == key) = some (slot, entry)) :
    ∃ detached next, table.detach store hash key = .ok (some (slot, detached, next)) ∧
      Detached table rows store (bucketOf rows.length hash)
        ((rows.row (bucketOf rows.length hash)).eraseP (·.2.1 == key)) (slot, entry)
        detached next := by
  have inside := bucketOf_lt positive hash
  simp only [detach, bucketFor_of_lays lays]
  generalize bucketOf rows.length hash = bucket at found inside ⊢
  obtain ⟨before, after, row, matched, skipped, left⟩ := Rows.split_at_found found
  have chain := chain_ok lays inside (short bucket)
  rw [row] at chain
  obtain ⟨taken, dropped⟩ := @threaded_split _ _ _ before after slot entry key matched skipped
  have fewer : subtract table.len 1 = .ok (table.len - 1) := subtract_of_le counted
  rw [left, chain, ok_bind, taken, dropped]
  rcases List.eq_nil_or_concat' before with rfl | ⟨front, ⟨previous, first⟩, rfl⟩
  · obtain ⟨next, done, result⟩ := detached_first sound lays distinct row counted
    exact ⟨_, next, by simp [fewer, done, threaded], result⟩
  · simp only [List.append_assoc, List.singleton_append] at row ⊢
    obtain ⟨mid, next, first_done, done, result⟩ := detached_later sound lays distinct row counted
    refine ⟨_, next, ?_, result⟩
    simp [fewer, threaded_append, threaded, first_done, done]

end MemIndex.ChainMap.Table
