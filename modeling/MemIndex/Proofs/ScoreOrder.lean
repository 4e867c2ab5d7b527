import Mathlib.Order.Monotone.Basic
import Mathlib.Order.Compare
import MemIndex.Proofs.Rounding
import MemIndex.Score

/- The order of scores. The word that a score is compared by is read as a place on a line: positive
   patterns stand at their magnitude, negative ones are mirrored to the places below zero. No two
   patterns share a place, and finite ones stand in the order of the numbers they denote. -/
namespace MemIndex

namespace Binary64

def magnitude (x : Binary64) : Nat := x.bits.toNat % 2 ^ 63

def denoted (x : Binary64) : ℚ :=
  (if x.negative then -1 else 1) *
    if x.exponentField = 0 then (x.fractionField / 2 ^ 52 : ℚ) * 2 ^ (-1022 : ℤ)
    else (1 + x.fractionField / 2 ^ 52 : ℚ) * 2 ^ ((x.exponentField : ℤ) - 1023)

section Fields

variable (x : Binary64)

theorem negative_iff : x.negative = true ↔ 2 ^ 63 ≤ x.bits.toNat := by
  unfold negative
  rw [decide_eq_true_iff, UInt64.le_iff_toNat_le]
  rfl

theorem fields_eq : x.exponentField = x.magnitude / 2 ^ 52 ∧
    x.fractionField = x.magnitude % 2 ^ 52 := by
  have most := x.bits.toNat_lt
  unfold exponentField fractionField magnitude fractionBits
  rw [Nat.shiftRight_eq_div_pow, Nat.one_shiftLeft]
  omega

theorem bits_eq : x.bits.toNat = x.magnitude + if x.negative then 2 ^ 63 else 0 := by
  have most := x.bits.toNat_lt
  have sign := x.negative_iff
  unfold magnitude
  split
  · rename_i negative
    have := sign.mp negative
    omega
  · rename_i positive
    have := mt sign.mpr positive
    omega

end Fields

section Units

def unitsOf (magnitude : Nat) : Nat :=
  if magnitude < 2 ^ 52 then magnitude
  else (2 ^ 52 + magnitude % 2 ^ 52) * 2 ^ (magnitude / 2 ^ 52 - 1)

theorem units_eq (x : Binary64) : x.units = unitsOf x.magnitude := by
  obtain ⟨exponent, fraction⟩ := x.fields_eq
  unfold units significand shift unitsOf fractionBits
  rw [exponent, fraction, Nat.shiftLeft_eq, Nat.one_shiftLeft]
  by_cases subnormal : x.magnitude < 2 ^ 52
  · rw [if_pos (by omega), if_pos subnormal, Nat.div_eq_of_lt subnormal, Nat.mod_eq_of_lt subnormal]
    exact Nat.mul_one _
  · rw [if_neg (by omega), if_neg subnormal]

/-- From one magnitude to the next the last bit is added, also where the significand carries into
the exponent. -/
theorem unitsOf_succ (m : Nat) : unitsOf (m + 1) = unitsOf m + 2 ^ (m / 2 ^ 52 - 1) := by
  unfold unitsOf
  by_cases subnormal : m + 1 < 2 ^ 52
  · have none : m / 2 ^ 52 - 1 = 0 := by omega
    rw [if_pos subnormal, if_pos (Nat.lt_of_succ_lt subnormal), none]
    rfl
  · rw [if_neg subnormal]
    by_cases carries : m % 2 ^ 52 = 2 ^ 52 - 1
    · have fraction : (m + 1) % 2 ^ 52 = 0 := by omega
      have exponent : (m + 1) / 2 ^ 52 = m / 2 ^ 52 + 1 := by omega
      rw [fraction, exponent, carries]
      by_cases least : m < 2 ^ 52
      · have zero : m / 2 ^ 52 = 0 := by omega
        rw [if_pos least, zero]
        omega
      · obtain ⟨e, at_⟩ : ∃ e, m / 2 ^ 52 = e + 1 := ⟨m / 2 ^ 52 - 1, by omega⟩
        rw [if_neg least, at_, Nat.add_sub_cancel, Nat.add_sub_cancel, Nat.pow_succ]
        ring
    · have fraction : (m + 1) % 2 ^ 52 = m % 2 ^ 52 + 1 := by omega
      have exponent : (m + 1) / 2 ^ 52 = m / 2 ^ 52 := by omega
      rw [fraction, exponent, if_neg (by omega)]
      ring

theorem unitsOf_strictMono : StrictMono unitsOf := by
  apply strictMono_nat_of_lt_succ
  intro m
  rw [unitsOf_succ]
  exact Nat.lt_add_of_pos_right (Nat.two_pow_pos _)

theorem denoted_eq (x : Binary64) : x.denoted = x.rational := by
  have scale : (2 : ℚ) ^ unitBits ≠ 0 := by positivity
  have signed : (x.value : ℚ) = (if x.negative then -1 else 1) * (x.units : ℚ) := by
    unfold value
    split <;> simp
  have power : ∀ e : ℤ, (2 : ℚ) ^ e * 2 ^ unitBits = 2 ^ (e + unitBits) := by
    intro e
    rw [← zpow_natCast, ← zpow_add₀ two_ne_zero]
  rw [rational, signed, denoted, mul_div_assoc]
  congr 1
  rw [eq_div_iff scale]
  unfold units significand shift
  by_cases subnormal : x.exponentField = 0
  · have bit : (-1022 : ℤ) + unitBits = (52 : ℕ) := rfl
    rw [if_pos subnormal, if_pos subnormal, subnormal, mul_assoc, power, bit, zpow_natCast]
    norm_num
  · obtain ⟨e, at_⟩ : ∃ e, x.exponentField = e + 1 := ⟨x.exponentField - 1, by omega⟩
    have bit : ((e + 1 : ℕ) : ℤ) - 1023 + unitBits = (52 + e : ℕ) := by
      unfold unitBits
      omega
    rw [if_neg subnormal, if_neg subnormal, at_, Nat.add_sub_cancel, mul_assoc, power, bit,
      zpow_natCast, Nat.shiftLeft_eq, Nat.one_shiftLeft, fractionBits, pow_add]
    push_cast
    ring

theorem denoted_lt (x y : Binary64) : x.denoted < y.denoted ↔ x.value < y.value := by
  have scale : (0 : ℚ) < 2 ^ unitBits := by positivity
  rw [denoted_eq, denoted_eq, rational, rational, div_lt_div_iff_of_pos_right scale, Int.cast_lt]

end Units

section Classes

variable (x : Binary64)

theorem isFinite_iff : x.isFinite = true ↔ x.magnitude < 2047 * 2 ^ 52 := by
  obtain ⟨exponent, -⟩ := x.fields_eq
  have most : x.magnitude < 2 ^ 63 := Nat.mod_lt _ (Nat.two_pow_pos _)
  unfold isFinite
  rw [bne_iff_ne, exponent]
  omega

theorem isNaN_iff : x.isNaN = true ↔ 2047 * 2 ^ 52 < x.magnitude := by
  obtain ⟨exponent, fraction⟩ := x.fields_eq
  have most : x.magnitude < 2 ^ 63 := Nat.mod_lt _ (Nat.two_pow_pos _)
  unfold isNaN isFinite
  rw [Bool.and_eq_true, Bool.not_eq_true', bne_eq_false_iff_eq, bne_iff_ne, exponent, fraction]
  omega

end Classes

end Binary64

namespace Score

open Binary64 (unitsOf unitsOf_strictMono units_eq)

def place (s : Score) : Int := s.orderWord.toInt

def minusZero : Score := ⟨.ofParts true 0⟩

section Places

theorem sshiftRight_sign (b : BitVec 64) :
    b.sshiftRight 63 = if b.msb then BitVec.allOnes 64 else 0#64 := by
  have sign : ∀ i, (if 63 + i < 64 then b.getLsbD (63 + i) else b.msb) = b.msb := by
    intro i
    split
    · obtain rfl : i = 0 := by omega
      exact (BitVec.msb_eq_getLsbD_last b).symm
    · rfl
  apply BitVec.eq_of_getLsbD_eq
  intro i inside
  rw [BitVec.getLsbD_sshiftRight, sign]
  cases b.msb with
  | false => simp
  | true =>
    rw [if_pos rfl, BitVec.getLsbD_allOnes, Bool.and_true, Bool.not_eq_eq_eq_not, ← decide_not]
    simp [inside]

theorem xor_low (n k : Nat) :
    n ^^^ (2 ^ k - 1) = n / 2 ^ k * 2 ^ k + (2 ^ k - 1 - n % 2 ^ k) := by
  have whole := Nat.div_add_mod (n ^^^ (2 ^ k - 1)) (2 ^ k)
  have small : 2 ^ k - 1 < 2 ^ k := Nat.sub_lt (Nat.two_pow_pos k) Nat.one_pos
  have flipped := @BitVec.toNat_not k (BitVec.ofNat k n)
  rw [← BitVec.xor_allOnes, BitVec.toNat_xor, BitVec.toNat_allOnes, BitVec.toNat_ofNat] at flipped
  rw [Nat.xor_div_two_pow, Nat.xor_mod_two_pow, Nat.div_eq_of_lt small, Nat.xor_zero,
    Nat.mod_eq_of_lt small, flipped] at whole
  rw [← whole, Nat.mul_comm]

theorem place_eq (s : Score) : s.place =
    if s.number.negative then -(s.number.magnitude : Int) - 1 else s.number.magnitude := by
  have most := s.number.bits.toNat_lt
  have sign := s.number.negative_iff
  have word : s.orderWord.toBitVec = s.number.bits.toBitVec ^^^
      (s.number.bits.toBitVec.sshiftRight 63 >>> 1) := by
    simp [orderWord]
  change s.orderWord.toBitVec.toInt = _
  rw [word, sshiftRight_sign, BitVec.toInt_eq_toNat_cond, BitVec.toNat_xor, BitVec.msb_eq_decide,
    UInt64.toNat_toBitVec]
  unfold Binary64.magnitude
  by_cases negative : 2 ^ 63 ≤ s.number.bits.toNat
  · have mask : (BitVec.allOnes 64 >>> 1).toNat = 2 ^ 63 - 1 := by decide
    rw [if_pos (sign.mpr negative), if_pos (decide_eq_true negative), mask, xor_low]
    omega
  · have mask : (0#64 >>> 1).toNat = 0 := by decide
    have positive : ¬ decide (2 ^ (64 - 1) ≤ s.number.bits.toNat) = true := by
      rwa [decide_eq_true_iff]
    rw [if_neg (mt sign.mp negative), if_neg positive, mask, Nat.xor_zero]
    omega

theorem place_injective {a b : Score} (same : a.place = b.place) : a = b := by
  have bits : a.number.bits.toNat = b.number.bits.toNat := by
    rw [place_eq, place_eq] at same
    rw [a.number.bits_eq, b.number.bits_eq]
    cases first : a.number.negative <;> cases second : b.number.negative <;>
      simp only [first, second, if_true, Bool.false_eq_true, if_false] at same ⊢ <;> omega
  obtain ⟨⟨x⟩⟩ := a
  obtain ⟨⟨y⟩⟩ := b
  obtain rfl : x = y := UInt64.toNat_inj.mp bits
  rfl

theorem compare_place (a b : Score) : compare a b = compare a.orderWord b.orderWord := rfl

theorem compare_lt {a b : Score} : compare a b = .lt ↔ a.place < b.place := by
  rw [compare_place, Std.compare_eq_lt, Int64.lt_iff_toInt_lt]
  rfl

instance : Std.TransOrd Score where
  eq_swap := Std.OrientedOrd.eq_swap (α := Int64)
  isLE_trans := Std.TransOrd.isLE_trans (α := Int64)

instance : Std.LawfulEqOrd Score where
  compare_self := Std.ReflOrd.compare_self (α := Int64)
  eq_of_compare := fun same =>
    place_injective (congrArg Int64.toInt (Std.LawfulEqOrd.eq_of_compare (α := Int64) same))

end Places

section Numbers

variable {a b : Score}

theorem place_minusZero : minusZero.place = -1 := by decide

theorem place_zero : zero.place = 0 := by decide

theorem place_infinity (negative : Bool) : (⟨.infinity negative⟩ : Score).place =
    if negative then -(2047 * 2 ^ 52 : Int) - 1 else 2047 * 2 ^ 52 := by
  cases negative <;> decide

theorem value_eq (s : Score) : s.number.value =
    if s.number.negative then -(unitsOf s.number.magnitude : Int)
    else unitsOf s.number.magnitude := by
  rw [Binary64.value, units_eq]

/-- The places are in the order of the values, but for the two zeros, which have the same value. -/
theorem place_lt (a b : Score) : a.place < b.place ↔
    a.number.value < b.number.value ∨ (a = minusZero ∧ b = zero) := by
  have zeros : (a = minusZero ∧ b = zero) ↔ (a.place = -1 ∧ b.place = 0) := by
    constructor
    · rintro ⟨rfl, rfl⟩
      exact ⟨place_minusZero, place_zero⟩
    · rintro ⟨first, second⟩
      exact ⟨place_injective (first.trans place_minusZero.symm),
        place_injective (second.trans place_zero.symm)⟩
  have upwards := unitsOf_strictMono.lt_iff_lt (a := a.number.magnitude) (b := b.number.magnitude)
  have downwards := unitsOf_strictMono.lt_iff_lt (a := b.number.magnitude) (b := a.number.magnitude)
  have first := unitsOf_strictMono.le_apply (x := a.number.magnitude)
  have second := unitsOf_strictMono.le_apply (x := b.number.magnitude)
  rw [zeros, place_eq, place_eq, value_eq, value_eq]
  cases a.number.negative <;> cases b.number.negative <;>
    simp only [if_true, Bool.false_eq_true, if_false] <;> omega

theorem nan_lt (isNaN : a.number.isNaN = true) (negative : a.number.negative = true) :
    compare a ⟨.infinity true⟩ = .lt := by
  have beyond := a.number.isNaN_iff.mp isNaN
  rw [compare_lt, place_infinity, place_eq, if_pos negative, if_pos rfl]
  omega

theorem lt_nan (isNaN : a.number.isNaN = true) (positive : a.number.negative = false) :
    compare ⟨.infinity false⟩ a = .lt := by
  have beyond := a.number.isNaN_iff.mp isNaN
  rw [compare_lt, place_infinity, place_eq, positive, if_neg Bool.false_ne_true,
    if_neg Bool.false_ne_true]
  omega

theorem infinity_lt (finite : a.number.isFinite = true) :
    compare ⟨.infinity true⟩ a = .lt := by
  have within := a.number.isFinite_iff.mp finite
  rw [compare_lt, place_infinity, place_eq, if_pos rfl]
  split <;> omega

theorem lt_infinity (finite : a.number.isFinite = true) :
    compare a ⟨.infinity false⟩ = .lt := by
  have within := a.number.isFinite_iff.mp finite
  rw [compare_lt, place_infinity, place_eq, if_neg Bool.false_ne_true]
  split <;> omega

end Numbers

section Choices

variable {a b : Score} (le : (compare a b).isLE = true)

include le

theorem lt_or_same : (compare a b = .lt ∧ compare b a = .gt) ∨ a = b := by
  cases found : compare a b with
  | lt => exact Or.inl ⟨rfl, Std.OrientedCmp.gt_of_lt found⟩
  | eq => exact Or.inr (Std.LawfulEqOrd.eq_of_compare found)
  | gt =>
    rw [found] at le
    cases le

theorem pick_greater : a.max b = b ∧ b.max a = b := by
  rcases lt_or_same le with ⟨before, after⟩ | rfl
  · simp [Score.max, before, after]
  · simp [Score.max]

theorem pick_less : a.min b = a ∧ b.min a = a := by
  rcases lt_or_same le with ⟨before, after⟩ | rfl
  · simp [Score.min, before, after]
  · simp [Score.min]

end Choices

/-- What the comparison says of any scores: the laws of a total order, the other operations that
follow it, and where the numbers stand in it. -/
structure Ordered (a b c : Score) : Prop where
  reflexive : compare a a = .eq
  oriented : compare b a = (compare a b).swap
  antisymmetric : (compare a b).isLE = true → (compare b a).isLE = true → a = b
  transitive : (compare a b).isLE = true → (compare b c).isLE = true → (compare a c).isLE = true
  identical : compare a b = .eq ↔ a.number.bits = b.number.bits
  equal : (a == b) = true ↔ compare a b = .eq
  known : a.partialCompare b = some (compare a b)
  less : a.less b = true ↔ compare a b = .lt
  upper : (compare a b).isLE = true → a.max b = b ∧ b.max a = b
  lower : (compare a b).isLE = true → a.min b = a ∧ b.min a = a
  numeric : a.number.isFinite = true → b.number.isFinite = true → (compare a b = .lt ↔
    a.number.denoted < b.number.denoted ∨ (a = minusZero ∧ b = zero))
  zeros : ¬ (compare minusZero a = .lt ∧ compare a zero = .lt)
  lowest : a.number.isNaN = true → a.number.negative = true → compare a ⟨.infinity true⟩ = .lt
  low : a.number.isFinite = true → compare ⟨.infinity true⟩ a = .lt
  high : a.number.isFinite = true → compare a ⟨.infinity false⟩ = .lt
  highest : a.number.isNaN = true → a.number.negative = false → compare ⟨.infinity false⟩ a = .lt

theorem scores_ordered (a b c : Score) : Ordered a b c where
  reflexive := Std.ReflOrd.compare_self
  oriented := Std.OrientedOrd.eq_swap
  antisymmetric first second :=
    Std.LawfulEqOrd.eq_of_compare (Std.OrientedCmp.isLE_antisymm first second)
  transitive := Std.TransOrd.isLE_trans
  identical := by
    rw [Std.compare_eq_eq_iff_eq]
    constructor
    · rintro rfl
      rfl
    · intro same
      obtain ⟨⟨x⟩⟩ := a
      obtain ⟨⟨y⟩⟩ := b
      obtain rfl : x = y := same
      rfl
  equal := beq_iff_eq (α := Ordering)
  known := rfl
  less := by
    rw [Score.less, beq_iff_eq, partialCompare, Option.some_inj]
  upper := pick_greater
  lower := pick_less
  numeric _ _ := by rw [compare_lt, place_lt, Binary64.denoted_lt]
  zeros := by
    rintro ⟨after, before⟩
    rw [compare_lt, place_minusZero] at after
    rw [compare_lt, place_zero] at before
    omega
  lowest := nan_lt
  low := infinity_lt
  high := lt_infinity
  highest := lt_nan

example : [⟨.ofParts true (2047 * 2 ^ 52 + 1)⟩, ⟨.infinity true⟩, ⟨.ofParts true (1023 * 2 ^ 52)⟩,
    minusZero, zero, ⟨.ofParts false 1⟩, ⟨.infinity false⟩,
    ⟨.ofParts false (2047 * 2 ^ 52 + 1)⟩].Pairwise fun a b : Score => compare a b = .lt := by
  decide

end Score

end MemIndex
