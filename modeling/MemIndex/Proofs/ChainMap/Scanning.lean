import MemIndex.Proofs.ChainMap.Keeping
import MemIndex.Proofs.ChainMap.Layout
import MemIndex.Proofs.ChainMap.Positions

/- One piece of a pass. It reads the bucket of the cursor in the smaller table, and in the larger
   one the buckets from the place of the cursor to the end of its block of the smaller table. -/
namespace MemIndex.ChainMap

open Cursor

variable {K V : Type}

section Sweeping

def Rows.bits {α : Type} (rows : Rows α) : Nat := rows.length.log2

def Rows.block {α : Type} (rows : Rows α) (block : Nat) : List α :=
  rows.row (bucketOf rows.length (wordAt (block * width rows.bits)))

def Rows.sweep {α : Type} (rows : Rows α) (smallBits : Nat) (cursor : UInt64) : List α :=
  let start := position cursor / width rows.bits
  let stop := (position cursor / width smallBits + 1) * (width smallBits / width rows.bits)
  (List.range' start (stop - start)).flatMap rows.block

theorem Rows.bits_of_pow {α : Type} {rows : Rows α} {k : Nat} (size : rows.length = 2 ^ k) :
    rows.bits = k := by
  unfold Rows.bits
  rw [size, Nat.log2_two_pow]

theorem Rows.bits_le {α : Type} {small large : Rows α} {j k : Nat} (size : small.length = 2 ^ j)
    (largeSize : large.length = 2 ^ k) (le : small.length ≤ large.length) : j ≤ k := by
  rw [size, largeSize] at le
  exact (Nat.pow_le_pow_iff_right (by decide)).mp le

theorem Rows.row_eq_block {α : Type} {rows : Rows α} {k : Nat} (size : rows.length = 2 ^ k)
    (word : UInt64) :
    rows.row (bucketOf rows.length word) = rows.block (position word / width k) := by
  have inside : position word / width k * width k < 2 ^ 64 :=
    Nat.lt_of_le_of_lt (Nat.div_mul_le_self _ _) (position_lt word)
  have same : bucketOf rows.length word =
      bucketOf rows.length (wordAt (position word / width k * width k)) := by
    rw [size, bucketOf_eq_iff, position_wordAt inside, Nat.mul_div_cancel _ (width_positive k)]
  unfold Rows.block
  rw [Rows.bits_of_pow size, same]

variable {table : Table} {store : Store K V} {rows : Rows (Placed K V)} {j k : Nat}

theorem wordMask_of_lays {memory : Memory K V} (lays : table.Lays memory rows)
    (size : rows.length = 2 ^ k) : table.wordMask = mask k := by
  unfold Table.wordMask
  rw [Table.mask, Table.buckets_of_lays lays, size, mask]

theorem pairsAt_ok (lays : table.Lays store.get? rows) (size : rows.length = 2 ^ k)
    (short : ∀ bucket, (rows.row bucket).length ≤ store.slots.size) (cursor : UInt64) :
    table.pairsAt store cursor =
      .ok ((rows.row (bucketOf rows.length cursor)).map (·.2)) := by
  have positive : 0 < rows.length := by
    rw [size]
    exact Nat.two_pow_pos k
  unfold Table.pairsAt
  rw [wordMask_of_lays lays size, and_mask, ← size]
  exact Table.pairs_ok lays (bucketOf_lt positive cursor) (short _)

/-- The end of the block is not reached before the last bucket, and is seen when it is reached. The
blocks ahead are `n`, and the block of the smaller table they lie in is `outer`. -/
theorem sweep_blocks (lays : table.Lays store.get? rows) (size : rows.length = 2 ^ k)
    (short : ∀ bucket, (rows.row bucket).length ≤ store.slots.size) (le : j ≤ k)
    {outer : Nat} (limit : (outer + 1) * width j ≤ 2 ^ 64) {fuel n : Nat} {cursor : UInt64}
    (starts : outer * width j ≤ position cursor / width k * width k)
    (ends : (position cursor / width k + n) * width k = (outer + 1) * width j) (some : 0 < n)
    (enough : n ≤ fuel) :
    ∃ next, sweep store table (mask j) fuel cursor = .ok (next,
        ((List.range' (position cursor / width k) n).flatMap rows.block).map (·.2)) ∧
      position next = (outer + 1) * width j % 2 ^ 64 := by
  induction fuel generalizing n cursor with
  | zero => omega
  | succ fuel ih =>
    obtain ⟨n, rfl⟩ : ∃ m, n = m + 1 := ⟨n - 1, by omega⟩
    have read := pairsAt_ok lays size short cursor
    rw [Rows.row_eq_block size] at read
    have next := position_advance cursor k
    have last := masked_eq_zero le (width_dvd_advance cursor k)
    rw [sweep, read, wordMask_of_lays lays size]
    simp only [ok_bind]
    by_cases one : n = 0
    · subst one
      rw [Nat.zero_add] at ends
      rw [ends] at next
      have ended : advance cursor (mask k) &&& (mask j ^^^ mask k) = 0 := by
        rw [last, next, Nat.dvd_mod_iff (width_dvd j)]
        exact Nat.dvd_mul_left _ _
      rw [if_pos ended]
      exact ⟨_, by simp, next⟩
    · have widthPositive := width_positive k
      have below : (position cursor / width k + 1) * width k < (outer + 1) * width j := by
        rw [← ends]
        exact Nat.mul_lt_mul_of_pos_right (by omega) widthPositive
      have above : outer * width j < (position cursor / width k + 1) * width k := by
        rw [Nat.add_mul]
        omega
      rw [Nat.mod_eq_of_lt (Nat.lt_of_lt_of_le below limit)] at next
      have block : position (advance cursor (mask k)) / width k =
          position cursor / width k + 1 := by
        rw [next, Nat.mul_div_cancel _ widthPositive]
      have more : ¬ advance cursor (mask k) &&& (mask j ^^^ mask k) = 0 := by
        rw [last, next]
        rw [Nat.mul_comm] at above
        rw [Nat.mul_comm (outer + 1)] at below
        exact Nat.not_dvd_of_lt_of_lt_mul_succ above below
      have after : outer * width j ≤
          position (advance cursor (mask k)) / width k * width k := by
        rw [block]
        omega
      have rest : (position (advance cursor (mask k)) / width k + n) * width k =
          (outer + 1) * width j := by
        rw [block, ← ends]
        congr 1
        omega
      obtain ⟨stop, done, place⟩ := ih after rest (by omega) (by omega)
      rw [if_neg more, done, block]
      refine ⟨stop, ?_, place⟩
      simp [List.range'_succ]

/-- The blocks of a larger table from a place on, to the end of a block of a smaller one. There are
no more of them than the sizes tell, wherever in the block the place is. -/
theorem sweep_within (lays : table.Lays store.get? rows) (size : rows.length = 2 ^ k)
    (short : ∀ bucket, (rows.row bucket).length ≤ store.slots.size) (le : j ≤ k)
    (cursor : UInt64) {fuel : Nat} (enough : 2 ^ k / 2 ^ j ≤ fuel) :
    sweep store table (mask j) fuel cursor =
      .ok (advance cursor (mask j), (rows.sweep j cursor).map (·.2)) := by
  let outer := position cursor / width j
  let start := position cursor / width k
  let ratio := width j / width k
  have even : ratio * width k = width j := Nat.div_mul_cancel (width_dvd_width le)
  have inside : outer * width j ≤ position cursor := Nat.div_mul_le_self _ _
  have limit : (outer + 1) * width j ≤ 2 ^ 64 := block_end_le cursor j
  have first : outer * ratio ≤ start := by
    rw [Nat.le_div_iff_mul_le (width_positive k), Nat.mul_assoc, even]
    exact inside
  have last : start < (outer + 1) * ratio := by
    rw [Nat.div_lt_iff_lt_mul (width_positive k), Nat.mul_assoc, even]
    exact lt_block_end cursor j
  have few : (outer + 1) * ratio - start ≤ fuel := by
    have atMost : ratio ≤ 2 ^ k / 2 ^ j := by
      change 2 ^ (64 - j) / 2 ^ (64 - k) ≤ 2 ^ k / 2 ^ j
      rw [Nat.pow_div (by omega) (by decide), Nat.pow_div le (by decide)]
      exact Nat.pow_le_pow_right (by decide) (by omega)
    rw [Nat.add_mul]
    omega
  have starts : outer * width j ≤ start * width k := by
    rw [← even, ← Nat.mul_assoc]
    exact Nat.mul_le_mul_right _ first
  have ends : (start + ((outer + 1) * ratio - start)) * width k = (outer + 1) * width j := by
    rw [Nat.add_sub_cancel' (Nat.le_of_lt last), Nat.mul_assoc, even]
  obtain ⟨next, done, place⟩ :=
    sweep_blocks lays size short le limit starts ends (by omega) few
  rw [done, Rows.sweep, Rows.bits_of_pow size]
  have same : next = advance cursor (mask j) := by
    apply position_injective
    rw [place, position_advance]
  rw [same]

theorem sweep_ok (lays : table.Lays store.get? rows) (size : rows.length = 2 ^ k)
    (short : ∀ bucket, (rows.row bucket).length ≤ store.slots.size) (le : j ≤ k)
    (cursor : UInt64) :
    sweep store table (mask j) table.buckets cursor =
      .ok (advance cursor (mask j), (rows.sweep j cursor).map (·.2)) := by
  apply sweep_within lays size short le cursor
  rw [Table.buckets_of_lays lays, size]
  exact Nat.div_le_self _ _

end Sweeping

section Pieces

def Plain.scan (p : Plain K V) (cursor : UInt64) : UInt64 × List (K × V) :=
  match p.moving with
  | none =>
    (advance cursor (mask p.active.bits), p.active.row (bucketOf p.active.length cursor))
  | some (_, target) =>
    let small := if target.length < p.active.length then target else p.active
    let large := if target.length < p.active.length then p.active else target
    (advance cursor (mask small.bits),
      small.row (bucketOf small.length cursor) ++ large.sweep small.bits cursor)

theorem Rows.bits_mapEach {α β : Type} (f : α → β) (rows : Rows α) :
    (rows.mapEach f).bits = rows.bits := by
  simp [Rows.bits]

theorem Rows.sweep_mapEach {α β : Type} (f : α → β) (rows : Rows α) (smallBits : Nat)
    (cursor : UInt64) :
    (rows.mapEach f).sweep smallBits cursor = (rows.sweep smallBits cursor).map f := by
  have block : (rows.mapEach f).block = fun b => (rows.block b).map f := by
    funext b
    simp [Rows.block, Rows.bits]
  simp only [Rows.sweep, block, Rows.bits_mapEach, List.map_flatMap]

variable {map : ChainMap K V}

theorem scan_refines {p : Plain K V} (represents : Represents map p) (tidy : p.Tidy)
    (cursor : UInt64) : map.scan cursor = .ok (p.scan cursor) := by
  obtain ⟨active, target, laid, rfl⟩ := represents
  obtain ⟨k, size⟩ : ∃ k, active.length = 2 ^ k := by simpa [plainOf] using tidy.size
  have inActive := pairsAt_ok laid.activeLays size (active_short laid) cursor
  have maskActive := wordMask_of_lays laid.activeLays size
  have onTarget := laid.targetLays
  cases phase : map.phase with
  | stable =>
    simp [scan, target?, phase, inActive, maskActive, Plain.scan, plainOf, Rows.bits, size]
  | resizing start table =>
    simp only [phase] at onTarget
    have moving : (plainOf map active target).moving = some (start, target.mapEach (·.2)) := by
      simp [plainOf, phase]
    obtain ⟨j, targetSize⟩ : ∃ j, target.length = 2 ^ j := by
      simpa using (tidy.midway _ _ moving).size
    have inTarget := pairsAt_ok onTarget.1 targetSize (target_short laid) cursor
    have maskTarget := wordMask_of_lays onTarget.1 targetSize
    have activeBuckets := Table.buckets_of_lays laid.activeLays
    have targetBuckets := Table.buckets_of_lays onTarget.1
    have itsActive : (plainOf map active target).active = active.mapEach (·.2) := rfl
    simp only [scan, target?, phase, Plain.scan, moving, itsActive, Rows.length_mapEach,
      activeBuckets, targetBuckets]
    by_cases less : target.length < active.length
    · have le := Rows.bits_le targetSize size (Nat.le_of_lt less)
      have swept := sweep_ok laid.activeLays size (active_short laid) le cursor
      simp only [if_pos less, inTarget, maskTarget, swept, ok_bind, pure_eq_ok,
        Rows.length_mapEach, Rows.row_mapEach, Rows.sweep_mapEach, Rows.bits_mapEach,
        Rows.bits_of_pow targetSize]
    · have le := Rows.bits_le size targetSize (Nat.le_of_not_lt less)
      have swept := sweep_ok onTarget.1 targetSize (target_short laid) le cursor
      simp only [if_neg less, inActive, maskActive, swept, ok_bind, pure_eq_ok,
        Rows.length_mapEach, Rows.row_mapEach, Rows.sweep_mapEach, Rows.bits_mapEach,
        Rows.bits_of_pow size]

theorem Rows.mem_sweep {α : Type} {rows : Rows α} {j k : Nat} (size : rows.length = 2 ^ k)
    (le : j ≤ k) {hashOf : α → UInt64} (filed : Rows.Filed hashOf rows) {x : α}
    (member : x ∈ rows.flatten) {cursor : UInt64}
    (ahead : position cursor ≤ position (hashOf x))
    (same : position (hashOf x) / width j = position cursor / width j) :
    x ∈ rows.sweep j cursor := by
  have inRow := Rows.mem_row_of_filed filed member
  rw [Rows.row_eq_block size] at inRow
  unfold Rows.sweep
  rw [Rows.bits_of_pow size]
  refine List.mem_flatMap.mpr ⟨_, List.mem_range'_1.mpr ?_, inRow⟩
  have even : width j / width k * width k = width j := Nat.div_mul_cancel (width_dvd_width le)
  have from_start : position cursor / width k ≤ position (hashOf x) / width k :=
    Nat.div_le_div_right ahead
  have before_end : position (hashOf x) / width k <
      (position cursor / width j + 1) * (width j / width k) := by
    rw [Nat.div_lt_iff_lt_mul (width_positive k), Nat.mul_assoc, even, ← same]
    exact lt_block_end (hashOf x) j
  omega

theorem same_block {word cursor : UInt64} {j : Nat} (ahead : position cursor ≤ position word)
    (before : advance cursor (mask j) = 0 ∨
      position word < position (advance cursor (mask j))) :
    position word / width j = position cursor / width j := by
  apply Nat.le_antisymm _ (Nat.div_le_div_right ahead)
  have less : position word < (position cursor / width j + 1) * width j := by
    rcases before with first | below
    · have wrapped := position_advance cursor j
      rw [first, position_zero] at wrapped
      have whole : 2 ^ 64 ≤ (position cursor / width j + 1) * width j := by
        refine Nat.le_of_dvd ?_ (Nat.dvd_of_mod_eq_zero wrapped.symm)
        exact Nat.mul_pos (Nat.succ_pos _) (width_positive j)
      exact Nat.lt_of_lt_of_le (position_lt word) whole
    · rw [position_advance] at below
      exact Nat.lt_of_lt_of_le below (Nat.mod_le _ _)
  exact Nat.le_of_lt_succ ((Nat.div_lt_iff_lt_mul (width_positive j)).mpr less)

/-- A piece reads every pair whose place lies between its cursor and the next one. -/
theorem scan_reads {p : Plain K V} (tidy : p.Tidy) {pair : K × V} (member : pair ∈ p.entries)
    {cursor : UInt64} (ahead : position cursor ≤ position (p.hash pair.1))
    (before : (p.scan cursor).1 = 0 ∨
      position (p.hash pair.1) < position (p.scan cursor).1) : pair ∈ (p.scan cursor).2 := by
  have inRow : ∀ rows : Rows (K × V), ∀ k, rows.length = 2 ^ k → Rows.Filed p.hashOf rows →
      pair ∈ rows.flatten → position (p.hash pair.1) / width k = position cursor / width k →
      pair ∈ rows.row (bucketOf rows.length cursor) := by
    intro rows k size filed inRows same
    have here := Rows.mem_row_of_filed filed inRows
    rwa [Plain.hashOf, size, (bucketOf_eq_iff k _ _).mpr same, ← size] at here
  obtain ⟨k, size⟩ := tidy.size
  cases moving : p.moving with
  | none =>
    simp only [Plain.scan, moving, Rows.bits_of_pow size] at before ⊢
    have inActive : pair ∈ p.active.flatten := by
      simpa [Plain.entries, Plain.target, moving] using member
    exact inRow p.active k size tidy.filed inActive (same_block ahead before)
  | some state =>
    obtain ⟨start, target⟩ := state
    obtain ⟨j, targetSize⟩ := (tidy.midway _ _ moving).size
    have targetFiled : Rows.Filed p.hashOf target := by
      simpa [Plain.target, moving] using tidy.targetFiled
    rw [Plain.entries_of_moving moving] at member
    simp only [Plain.scan, moving] at before ⊢
    by_cases less : target.length < p.active.length
    · simp only [if_pos less, Rows.bits_of_pow targetSize] at before ⊢
      have same := same_block ahead before
      have le := Rows.bits_le targetSize size (Nat.le_of_lt less)
      rcases List.mem_append.mp member with inActive | inTarget
      · exact List.mem_append_right _
          (Rows.mem_sweep size le tidy.filed inActive ahead same)
      · exact List.mem_append_left _ (inRow target j targetSize targetFiled inTarget same)
    · simp only [if_neg less, Rows.bits_of_pow size] at before ⊢
      have same := same_block ahead before
      have le := Rows.bits_le size targetSize (Nat.le_of_not_lt less)
      rcases List.mem_append.mp member with inActive | inTarget
      · exact List.mem_append_left _ (inRow p.active k size tidy.filed inActive same)
      · exact List.mem_append_right _
          (Rows.mem_sweep targetSize le targetFiled inTarget ahead same)

end Pieces

end MemIndex.ChainMap
