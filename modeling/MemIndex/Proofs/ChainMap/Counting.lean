import Mathlib.Data.List.Nodup
import Mathlib.Logic.Function.Iterate
import MemIndex.Proofs.ChainMap.Positions

/- A pass counts through the buckets of a table. Read from the other end, the masked bits of its
   cursor go up by one at each step, so the buckets that share their low bits, which are one bucket
   of a smaller table, come one after another. -/
namespace MemIndex.ChainMap.Cursor

open scoped List

variable {j k : Nat}

section Steps

theorem advance_masked (cursor : UInt64) (k : Nat) :
    advance cursor (mask k) &&& ~~~mask k = 0 := by
  have kept := and_mask_of_aligned (width_dvd_advance cursor k)
  rw [← kept, UInt64.and_assoc, UInt64.and_not_self, UInt64.and_zero]

theorem reversed_advance (inWord : k ≤ 64) (cursor : UInt64) :
    reversed k (advance cursor (mask k)) = (reversed k cursor + 1) % 2 ^ k := by
  rw [reversed_eq_block inWord, reversed_eq_block inWord, position_advance, ← width_whole inWord,
    Nat.mul_mod_mul_right, Nat.mul_div_cancel _ (width_positive k)]

theorem reversed_smaller (le : j ≤ k) (inWord : k ≤ 64) (word : UInt64) :
    reversed j word = reversed k word / 2 ^ (k - j) := by
  rw [reversed_eq_block (Nat.le_trans le inWord), reversed_eq_block inWord,
    Nat.div_div_eq_div_mul, Nat.mul_comm, width_parts le inWord]

end Steps

section Visits

/-- The cursor of a pass over 2^k buckets after n steps. -/
def visit (k n : Nat) : UInt64 := (fun cursor => advance cursor (mask k))^[n] 0

theorem visit_succ (k n : Nat) : visit k (n + 1) = advance (visit k n) (mask k) :=
  Function.iterate_succ_apply' _ _ _

theorem width_dvd_visit (k n : Nat) : width k ∣ position (visit k n) := by
  cases n with
  | zero =>
    change width k ∣ position 0
    rw [position_zero]
    exact Nat.dvd_zero _
  | succ n =>
    rw [visit_succ]
    exact width_dvd_advance _ k

theorem visit_mod (k n : Nat) : (visit k n).toNat % 2 ^ k = (visit k n).toNat := by
  rw [← bucketOf_pow, ← and_mask, and_mask_of_aligned (width_dvd_visit k n)]

theorem visit_lt (k n : Nat) : (visit k n).toNat < 2 ^ k := by
  rw [← visit_mod]
  exact Nat.mod_lt _ (Nat.two_pow_pos k)

theorem reversed_visit (inWord : k ≤ 64) (n : Nat) : reversed k (visit k n) = n % 2 ^ k := by
  induction n with
  | zero =>
    change reversed k 0 = _
    rw [reversed_eq_block inWord, position_zero, Nat.zero_div, Nat.zero_mod]
  | succ n ih => rw [visit_succ, reversed_advance inWord, ih, Nat.mod_add_mod]

theorem position_visit (inWord : k ≤ 64) (n : Nat) :
    position (visit k n) = n % 2 ^ k * width k := by
  rw [← reversed_visit inWord, reversed_eq_block inWord,
    Nat.div_mul_cancel (width_dvd_visit k n)]

theorem visit_eq_iff (inWord : k ≤ 64) (m n : Nat) :
    visit k m = visit k n ↔ m % 2 ^ k = n % 2 ^ k := by
  rw [← reversed_visit inWord, ← reversed_visit inWord, reversed_eq_iff, visit_mod, visit_mod,
    UInt64.toNat_inj]

theorem visit_eq_zero_iff (inWord : k ≤ 64) (n : Nat) : visit k n = 0 ↔ n % 2 ^ k = 0 := by
  have start := visit_eq_iff inWord n 0
  rwa [Nat.zero_mod] at start

theorem toNat_bucket (inWord : k ≤ 64) {bucket : Nat} (inside : bucket < 2 ^ k) :
    (UInt64.ofNat bucket).toNat = bucket := by
  apply UInt64.toNat_ofNat_of_lt'
  exact Nat.lt_of_lt_of_le inside (Nat.pow_le_pow_right (by decide) inWord)

theorem visit_reversed (inWord : k ≤ 64) {word : UInt64} (inside : word.toNat < 2 ^ k) :
    visit k (reversed k word) = word := by
  have digits := reversed_visit inWord (reversed k word)
  rw [Nat.mod_eq_of_lt (reversed_lt k word), reversed_eq_iff, visit_mod,
    Nat.mod_eq_of_lt inside] at digits
  exact UInt64.toNat_inj.mp digits

theorem visits_perm (inWord : k ≤ 64) :
    ((List.range (2 ^ k)).map fun n => (visit k n).toNat) ~ List.range (2 ^ k) := by
  have apart : ((List.range (2 ^ k)).map fun n => (visit k n).toNat).Nodup := by
    apply List.Nodup.map_on _ List.nodup_range
    intro m early n later same
    rw [List.mem_range] at early later
    have equal := (visit_eq_iff inWord m n).mp (UInt64.toNat_inj.mp same)
    rwa [Nat.mod_eq_of_lt early, Nat.mod_eq_of_lt later] at equal
  rw [List.perm_ext_iff_of_nodup apart List.nodup_range]
  intro bucket
  rw [List.mem_map, List.mem_range]
  constructor
  · rintro ⟨n, -, rfl⟩
    exact visit_lt k n
  · intro inside
    have word := toNat_bucket inWord inside
    refine ⟨reversed k (UInt64.ofNat bucket), List.mem_range.mpr (reversed_lt k _), ?_⟩
    rw [visit_reversed inWord (by rwa [word]), word]

end Visits

section Sharing

/-- A cursor of a smaller table's pass is one of a larger table's too, so a pass goes on from there
when the table has grown. -/
theorem visit_smaller (le : j ≤ k) (inWord : k ≤ 64) (n : Nat) :
    visit k (n * 2 ^ (k - j)) = visit j n := by
  apply position_injective
  rw [position_visit inWord, position_visit (Nat.le_trans le inWord),
    ← Nat.pow_sub_mul_pow 2 le, Nat.mul_comm n, Nat.mul_mod_mul_left, Nat.mul_right_comm,
    width_parts le inWord, Nat.mul_comm]

theorem visit_shares_iff (le : j ≤ k) (inWord : k ≤ 64) (word : UInt64) {n : Nat}
    (inside : n < 2 ^ k) :
    (visit k n).toNat % 2 ^ j = word.toNat % 2 ^ j ↔
      reversed j word * 2 ^ (k - j) ≤ n ∧ n < reversed j word * 2 ^ (k - j) + 2 ^ (k - j) := by
  have positive := Nat.two_pow_pos (k - j)
  rw [← reversed_eq_iff, reversed_smaller le inWord, reversed_visit inWord,
    Nat.mod_eq_of_lt inside, Nat.div_eq_iff positive]
  omega

theorem run_inside (le : j ≤ k) (word : UInt64) :
    reversed j word * 2 ^ (k - j) + 2 ^ (k - j) ≤ 2 ^ k := by
  calc reversed j word * 2 ^ (k - j) + 2 ^ (k - j)
    _ = (reversed j word + 1) * 2 ^ (k - j) := by rw [Nat.add_mul, Nat.one_mul]
    _ ≤ 2 ^ j * 2 ^ (k - j) := Nat.mul_le_mul_right _ (reversed_lt j word)
    _ = 2 ^ k := by rw [Nat.mul_comm, Nat.pow_sub_mul_pow 2 le]

end Sharing

structure Counts (k : Nat) : Prop where
  masked : ∀ cursor, advance cursor (mask k) &&& ~~~mask k = 0
  next : ∀ cursor, reversed k (advance cursor (mask k)) = (reversed k cursor + 1) % 2 ^ k
  ordered : ∀ n < 2 ^ k, reversed k (visit k n) = n
  each : ((List.range (2 ^ k)).map fun n => (visit k n).toNat) ~ List.range (2 ^ k)
  returns : visit k (2 ^ k) = 0
  underWay : ∀ n, 0 < n → n < 2 ^ k → visit k n ≠ 0
  together : ∀ j ≤ k, ∀ low < 2 ^ j, ∃ first, first + 2 ^ (k - j) ≤ 2 ^ k ∧
    ∀ n < 2 ^ k, (visit k n).toNat % 2 ^ j = low ↔ first ≤ n ∧ n < first + 2 ^ (k - j)
  resumed : ∀ j ≤ k, ∀ n, visit k (n * 2 ^ (k - j)) = visit j n

/-- Every table whose mask is a word is counted through. What bits a cursor has above the mask makes
no difference. -/
theorem passes_count (inWord : k ≤ 64) : Counts k where
  masked cursor := advance_masked cursor k
  next := reversed_advance inWord
  ordered n inside := by rw [reversed_visit inWord, Nat.mod_eq_of_lt inside]
  each := visits_perm inWord
  returns := (visit_eq_zero_iff inWord _).mpr (Nat.mod_self _)
  underWay n started inside := by
    intro back
    rw [visit_eq_zero_iff inWord, Nat.mod_eq_of_lt inside] at back
    omega
  together j le low small := by
    have word := toNat_bucket (Nat.le_trans le inWord) small
    refine ⟨_, run_inside le (UInt64.ofNat low), ?_⟩
    intro n inside
    rw [← visit_shares_iff le inWord _ inside, word, Nat.mod_eq_of_lt small]
  resumed j le := visit_smaller le inWord

theorem passes_count_eight : 3 ≤ 64 ∧ Counts 3 ∧
    (List.range 9).map (fun n => (visit 3 n).toNat) = [0, 4, 2, 6, 1, 5, 3, 7, 0] ∧
    advance 18446744073709551613 (mask 3) = 3 :=
  ⟨by decide, passes_count (by decide), by decide +kernel, by decide +kernel⟩

end MemIndex.ChainMap.Cursor
