import Mathlib.Algebra.Ring.Nat
import MemIndex.ChainMap.Scan
import MemIndex.Proofs.ChainMap.Rows

/- Passes go through the words in the order of their reversed bits. A table of 2^k buckets cuts this
   order into 2^k blocks of equal width, one for each bucket, so the blocks of a larger table lie
   inside those of a smaller one. -/
namespace MemIndex.ChainMap.Cursor

def position (word : UInt64) : Nat := (reverseBits word).toNat

def wordAt (place : Nat) : UInt64 := reverseBits (UInt64.ofNat place)

/-- The number of words that share a bucket of 2^k, and one if there are too few words to share. -/
def width (k : Nat) : Nat := 2 ^ (64 - k)

section Places

theorem width_positive (k : Nat) : 0 < width k := Nat.two_pow_pos _

theorem width_dvd (k : Nat) : width k ∣ 2 ^ 64 := Nat.pow_dvd_pow 2 (Nat.sub_le _ _)

theorem width_dvd_width {j k : Nat} (le : j ≤ k) : width k ∣ width j :=
  Nat.pow_dvd_pow 2 (by omega)

theorem width_parts {j k : Nat} (le : j ≤ k) (inWord : k ≤ 64) :
    2 ^ (k - j) * width k = width j := by
  rw [width, width, ← Nat.pow_add]
  congr 1
  omega

theorem width_whole {k : Nat} (inWord : k ≤ 64) : 2 ^ k * width k = 2 ^ 64 :=
  width_parts (Nat.zero_le k) inWord

theorem width_single {k : Nat} (large : 64 ≤ k) : width k = 1 := by
  rw [width, Nat.sub_eq_zero_of_le large, Nat.pow_zero]

theorem position_lt (word : UInt64) : position word < 2 ^ 64 := UInt64.toNat_lt _

@[simp] theorem reverseBits_reverseBits (word : UInt64) :
    reverseBits (reverseBits word) = word := by
  simp [reverseBits, BitVec.reverse_reverse_eq]

theorem testBit_position (word : UInt64) {i : Nat} (inside : i < 64) :
    (position word).testBit i = word.toNat.testBit (63 - i) := by
  change (word.toBitVec.reverse).getLsbD i = word.toBitVec.getLsbD (63 - i)
  rw [BitVec.getLsbD_reverse, BitVec.getMsbD_eq_getLsbD]
  simp [inside]

theorem testBit_outside (word : UInt64) {i : Nat} (outside : ¬ i < 64) :
    word.toNat.testBit i = false := by
  have beyond : 2 ^ 64 ≤ 2 ^ i := Nat.pow_le_pow_right (by decide) (Nat.le_of_not_lt outside)
  exact Nat.testBit_lt_two_pow (Nat.lt_of_lt_of_le word.toNat_lt beyond)

@[simp] theorem position_wordAt {place : Nat} (inside : place < 2 ^ 64) :
    position (wordAt place) = place := by
  unfold position wordAt
  rw [reverseBits_reverseBits]
  exact UInt64.toNat_ofNat_of_lt' inside

theorem position_injective {a b : UInt64} (same : position a = position b) : a = b := by
  have reversed : reverseBits a = reverseBits b := UInt64.toNat_inj.mp same
  rw [← reverseBits_reverseBits a, reversed, reverseBits_reverseBits]

@[simp] theorem position_zero : position 0 = 0 := by decide +kernel

end Places

section Digits

def reversed (k : Nat) (word : UInt64) : Nat := (word.toBitVec.setWidth k).reverse.toNat

theorem reversed_lt (k : Nat) (word : UInt64) : reversed k word < 2 ^ k := BitVec.isLt _

theorem reversed_eq_iff (k : Nat) (a b : UInt64) :
    reversed k a = reversed k b ↔ a.toNat % 2 ^ k = b.toNat % 2 ^ k := by
  have low : ∀ word : UInt64, (word.toBitVec.setWidth k).toNat = word.toNat % 2 ^ k :=
    fun word => BitVec.toNat_setWidth k word.toBitVec
  rw [← low, ← low, BitVec.toNat_inj, reversed, reversed, BitVec.toNat_inj]
  constructor
  · intro same
    have again := congrArg BitVec.reverse same
    rwa [BitVec.reverse_reverse_eq, BitVec.reverse_reverse_eq] at again
  · exact congrArg BitVec.reverse

theorem reversed_eq_block {k : Nat} (le : k ≤ 64) (word : UInt64) :
    reversed k word = position word / width k := by
  apply Nat.eq_of_testBit_eq
  intro i
  have place : i + 64 - k = i + (64 - k) := by omega
  have above : k - 64 ≤ i := by omega
  change (word.toBitVec.setWidth k).reverse.getLsbD i = _
  rw [BitVec.getLsbD_reverse, BitVec.getMsbD_setWidth, width, Nat.testBit_div_two_pow, place]
  change _ = word.toBitVec.reverse.getLsbD (i + (64 - k))
  rw [BitVec.getLsbD_reverse]
  simp [above]

end Digits

section Blocks

theorem bucketOf_pow (k : Nat) (word : UInt64) : bucketOf (2 ^ k) word = word.toNat % 2 ^ k :=
  Nat.and_two_pow_sub_one_eq_mod _ _

/-- Two words select the same bucket exactly when their places are in the same block. -/
theorem bucketOf_eq_iff (k : Nat) (a b : UInt64) :
    bucketOf (2 ^ k) a = bucketOf (2 ^ k) b ↔ position a / width k = position b / width k := by
  rw [bucketOf_pow, bucketOf_pow]
  rcases Nat.le_total k 64 with le | large
  · rw [← reversed_eq_block le, ← reversed_eq_block le, reversed_eq_iff]
  · -- There are no more words than buckets, so no two words share one.
    have alone : ∀ word : UInt64, word.toNat % 2 ^ k = word.toNat := fun word =>
      Nat.mod_eq_of_lt (Nat.lt_of_lt_of_le word.toNat_lt (Nat.pow_le_pow_right (by decide) large))
    rw [alone, alone, UInt64.toNat_inj, width_single large, Nat.div_one, Nat.div_one]
    exact ⟨congrArg position, position_injective⟩

end Blocks

section Masks

/-- The mask of a table as a word. A table may have more buckets than there are words. -/
def mask (k : Nat) : UInt64 := UInt64.ofNat (2 ^ k - 1)

theorem testBit_mask (k : Nat) {i : Nat} (inside : i < 64) :
    (mask k).toNat.testBit i = decide (i < k) := by
  change (UInt64.ofNat (2 ^ k - 1)).toNat.testBit i = decide (i < k)
  rw [UInt64.toNat_ofNat', Nat.testBit_mod_two_pow, Nat.testBit_two_pow_sub_one]
  simp [inside]

theorem and_mask (cursor : UInt64) (k : Nat) :
    (cursor &&& mask k).toNat = bucketOf (2 ^ k) cursor := by
  rw [bucketOf_pow, UInt64.toNat_and]
  apply Nat.eq_of_testBit_eq
  intro i
  rw [Nat.testBit_and, Nat.testBit_mod_two_pow]
  by_cases inside : i < 64
  · rw [testBit_mask k inside, Bool.and_comm]
  · rw [testBit_outside cursor inside]
    simp

theorem position_filled (cursor : UInt64) (k : Nat) :
    position (cursor ||| ~~~mask k) = position cursor / width k * width k + (width k - 1) := by
  have less : 2 ^ (64 - k) - 1 < 2 ^ (64 - k) := Nat.sub_lt (width_positive k) (by decide)
  rw [Nat.mul_comm, width]
  apply Nat.eq_of_testBit_eq
  intro i
  rw [Nat.testBit_two_pow_mul_add _ less, Nat.testBit_two_pow_sub_one, Nat.testBit_div_two_pow]
  by_cases inside : i < 64
  · rw [testBit_position _ inside, UInt64.toNat_or, Nat.testBit_or]
    have flipped : (~~~mask k).toNat.testBit (63 - i) = !decide (63 - i < k) := by
      rw [← testBit_mask k (by omega)]
      change (~~~(mask k).toBitVec).getLsbD (63 - i) = !(mask k).toBitVec.getLsbD (63 - i)
      rw [BitVec.getLsbD_not]
      simp
      omega
    rw [flipped]
    by_cases low : i < 64 - k
    · have above : ¬ 63 - i < k := by omega
      simp [low, above]
    · have masked : 63 - i < k := by omega
      have place : i - (64 - k) + (64 - k) = i := by omega
      rw [if_neg low, place, testBit_position _ inside]
      simp [masked]
  · have outside : ∀ word, (position word).testBit i = false := fun word =>
      testBit_outside (reverseBits word) inside
    have low : ¬ i < 64 - k := by omega
    have place : i - (64 - k) + (64 - k) = i := by omega
    rw [if_neg low, place, outside, outside]

theorem block_end_le (word : UInt64) (k : Nat) :
    (position word / width k + 1) * width k ≤ 2 ^ 64 := by
  obtain ⟨blocks, whole⟩ := width_dvd k
  have less : position word / width k < blocks := by
    have inside := position_lt word
    rw [whole] at inside
    exact Nat.div_lt_of_lt_mul inside
  rw [whole, Nat.mul_comm (width k)]
  exact Nat.mul_le_mul_right _ less

/-- A cursor goes on to the start of the next block, and from the last block to the first. -/
theorem position_advance (cursor : UInt64) (k : Nat) :
    position (advance cursor (mask k)) = (position cursor / width k + 1) * width k % 2 ^ 64 := by
  have positive := width_positive k
  have filled := position_filled cursor k
  have next : position (advance cursor (mask k)) =
      (position (cursor ||| ~~~mask k) + 1) % 2 ^ 64 := by
    unfold position advance
    rw [reverseBits_reverseBits, UInt64.toNat_add]
    rfl
  rw [next, filled, Nat.add_mul, Nat.one_mul]
  congr 1
  omega

theorem advance_cases (cursor : UInt64) (k : Nat) :
    (position cursor / width k + 1) * width k = 2 ^ 64 ∧ advance cursor (mask k) = 0 ∨
      (position cursor / width k + 1) * width k < 2 ^ 64 ∧
        position (advance cursor (mask k)) = (position cursor / width k + 1) * width k := by
  have place := position_advance cursor k
  rcases Nat.eq_or_lt_of_le (block_end_le cursor k) with last | inside
  · rw [last, Nat.mod_self, ← position_zero] at place
    exact Or.inl ⟨last, position_injective place⟩
  · rw [Nat.mod_eq_of_lt inside] at place
    exact Or.inr ⟨inside, place⟩

theorem width_dvd_advance (cursor : UInt64) (k : Nat) :
    width k ∣ position (advance cursor (mask k)) := by
  rw [position_advance, Nat.dvd_mod_iff (width_dvd k)]
  exact Nat.dvd_mul_left _ _

theorem lt_block_end (cursor : UInt64) (k : Nat) :
    position cursor < (position cursor / width k + 1) * width k := by
  rw [Nat.add_mul, Nat.one_mul]
  exact Nat.lt_div_mul_add (width_positive k)

theorem advance_ahead (cursor : UInt64) (k : Nat) :
    advance cursor (mask k) = 0 ∨ position cursor < position (advance cursor (mask k)) := by
  rcases advance_cases cursor k with ⟨-, ended⟩ | ⟨-, place⟩
  · exact Or.inl ended
  · rw [place]
    exact Or.inr (lt_block_end cursor k)

theorem two_pow_dvd_iff (n m : Nat) : 2 ^ m ∣ n ↔ ∀ i, i < m → n.testBit i = false := by
  rw [Nat.dvd_iff_mod_eq_zero]
  constructor
  · intro divides i low
    have bit := congrArg (Nat.testBit · i) divides
    simpa [low] using bit
  · intro zeros
    apply Nat.eq_of_testBit_eq
    intro i
    rw [Nat.testBit_mod_two_pow, Nat.zero_testBit]
    by_cases low : i < m
    · simp [zeros i low]
    · simp [low]

theorem width_dvd_position (k : Nat) (word : UInt64) :
    width k ∣ position word ↔ ∀ i, i < 64 → k ≤ i → word.toNat.testBit i = false := by
  unfold width
  rw [two_pow_dvd_iff]
  constructor
  · intro zeros i inside above
    have back : 63 - (63 - i) = i := by omega
    have bit := zeros (63 - i) (by omega)
    rwa [testBit_position word (by omega), back] at bit
  · intro zeros i low
    rw [testBit_position word (by omega)]
    exact zeros (63 - i) (by omega) (by omega)

/-- The first word of a block of the larger table is the first of one of the smaller table when
the bits that only the larger mask has are zero. -/
theorem masked_eq_zero {j k : Nat} (le : j ≤ k) {word : UInt64}
    (aligned : width k ∣ position word) :
    word &&& (mask j ^^^ mask k) = 0 ↔ width j ∣ position word := by
  rw [width_dvd_position] at aligned
  rw [width_dvd_position, ← UInt64.toNat_inj, UInt64.toNat_and, UInt64.toNat_xor]
  constructor
  · intro zero i inside above
    by_cases low : i < k
    · have bit := congrArg (Nat.testBit · i) zero
      have notSmall : ¬ i < j := by omega
      simpa [testBit_mask _ inside, low, notSmall] using bit
    · exact aligned i inside (Nat.le_of_not_lt low)
  · intro zeros
    apply Nat.eq_of_testBit_eq
    intro i
    rw [Nat.testBit_and, Nat.testBit_xor]
    by_cases inside : i < 64
    · rw [testBit_mask j inside, testBit_mask k inside]
      by_cases small : i < j
      · have large : i < k := by omega
        simp [small, large]
      · simp [zeros i inside (Nat.le_of_not_lt small)]
    · rw [testBit_outside word inside]
      simp

theorem and_mask_of_aligned {k : Nat} {word : UInt64} (aligned : width k ∣ position word) :
    word &&& mask k = word := by
  rw [width_dvd_position] at aligned
  rw [← UInt64.toNat_inj, UInt64.toNat_and]
  apply Nat.eq_of_testBit_eq
  intro i
  rw [Nat.testBit_and]
  by_cases inside : i < 64
  · rw [testBit_mask k inside]
    by_cases low : i < k
    · simp [low]
    · simp [aligned i inside (Nat.le_of_not_lt low)]
  · rw [testBit_outside word inside]
    rfl

end Masks

end MemIndex.ChainMap.Cursor
