import Mathlib.Algebra.Order.Field.Rat
import Mathlib.Algebra.Order.Ring.Abs
import Mathlib.Tactic.Linarith
import Mathlib.Tactic.Ring
import MemIndex.Binary64

/- Rounding. A quotient is rounded to the nearest number of 53 bits, so one that has no more bits is
   met exactly, and a power of two is passed as soon as the quotient exceeds it by more than half
   of its last bit. -/
namespace MemIndex.Binary64

section Nearest

def lastBit (num den : Nat) : Nat := (num / den).log2 - fractionBits

def significandOf (num den : Nat) : Nat := nearestEven num (den * 2 ^ lastBit num den)

def rounded (num den : Nat) : Nat := significandOf num den * 2 ^ lastBit num den

def Representable (n : Nat) : Prop := ∃ m s, m < 2 ^ 53 ∧ n = m * 2 ^ s

theorem representable_pow (e : Nat) : Representable (2 ^ e) :=
  ⟨1, e, by norm_num, (Nat.one_mul _).symm⟩

theorem nearestEven_close {den : Nat} (positive : 0 < den) (num : Nat) :
    2 * num ≤ 2 * (nearestEven num den * den) + den ∧
      2 * (nearestEven num den * den) ≤ 2 * num + den := by
  have whole := Nat.div_add_mod num den
  have rest := Nat.mod_lt num positive
  rw [Nat.mul_comm] at whole
  unfold nearestEven
  dsimp only
  split
  · omega
  · split
    · rw [Nat.add_mul]
      omega
    · rcases Nat.mod_two_eq_zero_or_one (num / den) with even | odd
      · rw [even, Nat.add_zero]
        omega
      · rw [odd, Nat.add_mul]
        omega

variable {num den r : Nat} (positive : 0 < den)

include positive

theorem significand_close :
    2 * num ≤ 2 * (significandOf num den * (den * 2 ^ lastBit num den)) + den * 2 ^ lastBit num den ∧
      2 * (significandOf num den * (den * 2 ^ lastBit num den)) ≤
        2 * num + den * 2 ^ lastBit num den :=
  nearestEven_close (Nat.mul_pos positive (Nat.two_pow_pos _)) num

theorem num_lt : num < 2 ^ 53 * (den * 2 ^ lastBit num den) := by
  have quotient := Nat.lt_log2_self (n := num / den)
  have few : (num / den).log2 + 1 ≤ 53 + lastBit num den := by
    unfold lastBit fractionBits
    omega
  have less := Nat.lt_of_lt_of_le quotient (Nat.pow_le_pow_right Nat.two_pos few)
  rw [Nat.div_lt_iff_lt_mul positive, Nat.pow_add] at less
  rwa [Nat.mul_comm den, ← Nat.mul_assoc]

theorem le_num (cut : lastBit num den ≠ 0) : 2 ^ 52 * (den * 2 ^ lastBit num den) ≤ num := by
  have place : (num / den).log2 = 52 + lastBit num den := by
    unfold lastBit fractionBits at cut ⊢
    omega
  have some : num / den ≠ 0 := by
    intro none
    rw [none, Nat.log2_zero] at place
    omega
  have quotient := Nat.log2_self_le some
  rw [place, Nat.le_div_iff_mul_le positive, Nat.pow_add] at quotient
  rwa [Nat.mul_comm den, ← Nat.mul_assoc]

theorem significand_le : significandOf num den ≤ 2 ^ 53 := by
  have close := (@significand_close num den positive).2
  have less := @num_lt num den positive
  have unit : 0 < den * 2 ^ lastBit num den := Nat.mul_pos positive (Nat.two_pow_pos _)
  have bound : 2 * significandOf num den * (den * 2 ^ lastBit num den) <
      (2 ^ 54 + 1) * (den * 2 ^ lastBit num den) := by
    rw [Nat.add_mul, Nat.mul_assoc]
    omega
  have := Nat.lt_of_mul_lt_mul_right bound
  omega

theorem le_significand (cut : lastBit num den ≠ 0) : 2 ^ 52 ≤ significandOf num den := by
  have close := (@significand_close num den positive).1
  have more := le_num positive cut
  have unit : 0 < den * 2 ^ lastBit num den := Nat.mul_pos positive (Nat.two_pow_pos _)
  have bound : 2 ^ 53 * (den * 2 ^ lastBit num den) ≤
      (2 * significandOf num den + 1) * (den * 2 ^ lastBit num den) := by
    rw [Nat.add_mul, Nat.mul_assoc]
    omega
  have := Nat.le_of_mul_le_mul_right bound unit
  omega

theorem rounded_close :
    |(rounded num den : ℚ) - num / den| ≤ 2 ^ lastBit num den / 2 := by
  obtain ⟨low, high⟩ := @significand_close num den positive
  have below : (2 * num : ℚ) ≤
      2 * (significandOf num den * (den * 2 ^ lastBit num den)) + den * 2 ^ lastBit num den := by
    exact_mod_cast low
  have above : (2 * (significandOf num den * (den * 2 ^ lastBit num den)) : ℚ) ≤
      2 * num + den * 2 ^ lastBit num den := by
    exact_mod_cast high
  have divisor : (0 : ℚ) < den := by exact_mod_cast positive
  have quotient : (num / den : ℚ) * den = num := div_mul_cancel₀ _ divisor.ne'
  rw [rounded, Nat.cast_mul, Nat.cast_pow, Nat.cast_ofNat, abs_le]
  constructor
  · refine le_of_mul_le_mul_right ?_ divisor
    linarith
  · refine le_of_mul_le_mul_right ?_ divisor
    linarith

theorem nearest_multiple (n : Nat) :
    |(rounded num den : ℚ) - num / den| ≤ |((n * 2 ^ lastBit num den : Nat) : ℚ) - num / den| := by
  have close := @rounded_close num den positive
  have unit : (0 : ℚ) < 2 ^ lastBit num den := by positivity
  by_cases same : n = significandOf num den
  · rw [same]
    exact le_of_eq rfl
  · have apart : (1 : ℚ) ≤ |(n : ℚ) - significandOf num den| := by
      have : (1 : ℤ) ≤ |(n : ℤ) - significandOf num den| := Int.one_le_abs (by omega)
      exact_mod_cast this
    have gap : (2 : ℚ) ^ lastBit num den ≤
        |((n * 2 ^ lastBit num den : Nat) : ℚ) - (rounded num den : ℚ)| := by
      have product : ((n * 2 ^ lastBit num den : Nat) : ℚ) - (rounded num den : ℚ) =
          ((n : ℚ) - significandOf num den) * 2 ^ lastBit num den := by
        rw [rounded]
        push_cast
        ring
      rw [product, abs_mul, abs_of_pos unit]
      exact le_mul_of_one_le_left unit.le apart
    have triangle := abs_sub_le ((n * 2 ^ lastBit num den : Nat) : ℚ) (num / den) (rounded num den)
    rw [abs_sub_comm (num / den : ℚ)] at triangle
    linarith

theorem rounded_nearest (representable : Representable r) :
    |(rounded num den : ℚ) - num / den| ≤ |(r : ℚ) - num / den| := by
  obtain ⟨m, s, few, rfl⟩ := representable
  rcases le_or_gt (lastBit num den) s with multiple | finer
  · have whole : m * 2 ^ s = m * 2 ^ (s - lastBit num den) * 2 ^ lastBit num den := by
      rw [Nat.mul_assoc, ← Nat.pow_add, Nat.sub_add_cancel multiple]
    rw [whole]
    exact nearest_multiple positive _
  · have least : m * 2 ^ s ≤ 2 ^ 52 * 2 ^ lastBit num den := by
      calc m * 2 ^ s ≤ 2 ^ 53 * 2 ^ s := Nat.mul_le_mul_right _ few.le
        _ = 2 ^ (53 + s) := (Nat.pow_add _ _ _).symm
        _ ≤ 2 ^ (52 + lastBit num den) := Nat.pow_le_pow_right Nat.two_pos (by omega)
        _ = 2 ^ 52 * 2 ^ lastBit num den := Nat.pow_add _ _ _
    have ahead := @le_num num den positive (by omega)
    rw [Nat.mul_left_comm, Nat.mul_comm den] at ahead
    have divisor : (0 : ℚ) < den := by exact_mod_cast positive
    have below : ((2 ^ 52 * 2 ^ lastBit num den : Nat) : ℚ) ≤ num / den := by
      rw [le_div_iff₀ divisor]
      exact_mod_cast ahead
    have lower : ((m * 2 ^ s : Nat) : ℚ) ≤ ((2 ^ 52 * 2 ^ lastBit num den : Nat) : ℚ) := by
      exact_mod_cast least
    refine (nearest_multiple positive (2 ^ 52)).trans ?_
    rw [abs_sub_comm, abs_sub_comm ((m * 2 ^ s : Nat) : ℚ), abs_of_nonneg (sub_nonneg.mpr below),
      abs_of_nonneg (sub_nonneg.mpr (lower.trans below))]
    exact sub_le_sub_left lower _

theorem rounded_exact (representable : Representable r) (whole : num = r * den) :
    rounded num den = r := by
  have near := @rounded_nearest num den _ positive representable
  have divisor : (den : ℚ) ≠ 0 := by exact_mod_cast positive.ne'
  have quotient : (num / den : ℚ) = r := by
    rw [whole, Nat.cast_mul, mul_div_cancel_right₀ _ divisor]
  rw [quotient, sub_self, abs_zero, abs_nonpos_iff, sub_eq_zero] at near
  exact_mod_cast near

theorem rounded_le (representable : Representable r) (atMost : num ≤ r * den) :
    rounded num den ≤ r := by
  have near := @rounded_nearest num den _ positive representable
  have divisor : (0 : ℚ) < den := by exact_mod_cast positive
  have below : (num / den : ℚ) ≤ r := by
    rw [div_le_iff₀ divisor]
    exact_mod_cast atMost
  by_contra! more
  have above : (r : ℚ) < rounded num den := by exact_mod_cast more
  rw [abs_of_pos (by linarith), abs_of_nonneg (by linarith)] at near
  linarith

/-- A quotient that exceeds a power of two by more than half of its last bit is nearer to the number
after it. -/
theorem pow_lt_rounded {e : Nat} (more : (2 ^ 53 + 1) * (2 ^ (52 + e) * den) < 2 ^ 53 * num) :
    2 ^ (52 + e) < rounded num den := by
  have next : Representable ((2 ^ 52 + 1) * 2 ^ e) := ⟨2 ^ 52 + 1, e, by norm_num, rfl⟩
  have near := @rounded_nearest num den _ positive next
  have divisor : (0 : ℚ) < den := by exact_mod_cast positive
  have unit : (0 : ℚ) < 2 ^ e := by positivity
  have quotient : (num / den : ℚ) * den = num := div_mul_cancel₀ _ divisor.ne'
  have beyond : (2 : ℚ) ^ 52 * 2 ^ e + 2 ^ e / 2 < num / den := by
    have cast : ((2 ^ 53 + 1) * (2 ^ 52 * 2 ^ e * den) : ℚ) < 2 ^ 53 * num := by
      rw [Nat.pow_add] at more
      exact_mod_cast more
    rw [lt_div_iff₀ divisor]
    linarith
  by_contra! less
  have below : (rounded num den : ℚ) ≤ 2 ^ 52 * 2 ^ e := by
    rw [Nat.pow_add] at less
    exact_mod_cast less
  rw [abs_sub_comm, abs_of_pos (by linarith)] at near
  push_cast at near
  rcases le_total (num / den : ℚ) ((2 ^ 52 + 1) * 2 ^ e) with inside | outside
  · rw [abs_of_nonneg (by linarith)] at near
    linarith
  · rw [abs_of_nonpos (by linarith)] at near
    linarith

end Nearest

section Decoding

variable {magnitude : Nat} (small : magnitude < 2 ^ 63) (negative : Bool)

include small

theorem bits_ofParts : (ofParts negative magnitude).bits.toNat =
    if negative then magnitude + 2 ^ 63 else magnitude := by
  unfold ofParts
  rw [UInt64.toNat_ofNat_of_lt']
  · rfl
  · change _ < 2 ^ 64
    split
    · omega
    · omega

theorem negative_ofParts : (ofParts negative magnitude).negative = negative := by
  have bits := bits_ofParts small negative
  unfold Binary64.negative
  rw [Bool.eq_iff_iff, decide_eq_true_iff, UInt64.le_iff_toNat_le, bits]
  change 2 ^ 63 ≤ _ ↔ _
  cases negative with
  | true => simp
  | false => simpa using small

theorem exponentField_ofParts :
    (ofParts negative magnitude).exponentField = magnitude / 2 ^ 52 := by
  unfold exponentField fractionBits
  rw [bits_ofParts small negative, Nat.shiftRight_eq_div_pow]
  split
  · omega
  · omega

theorem fractionField_ofParts :
    (ofParts negative magnitude).fractionField = magnitude % 2 ^ 52 := by
  unfold fractionField fractionBits
  rw [bits_ofParts small negative, Nat.one_shiftLeft]
  split
  · omega
  · omega

end Decoding

section Laying

/-- A significand that is laid over an exponent is read as it was meant, also when it carries. -/
theorem units_ofParts {place significand : Nat} (negative : Bool)
    (small : place * 2 ^ 52 + significand < 2 ^ 63) (most : significand ≤ 2 ^ 53)
    (least : place ≠ 0 → 2 ^ 52 ≤ significand) :
    (ofParts negative (place * 2 ^ 52 + significand)).units = significand * 2 ^ place := by
  unfold units Binary64.significand shift
  rw [exponentField_ofParts small, fractionField_ofParts small, Nat.shiftLeft_eq,
    fractionBits, Nat.one_shiftLeft]
  by_cases subnormal : significand < 2 ^ 52
  · have none : place = 0 := by
      by_contra some
      exact absurd (least some) (Nat.not_le_of_lt subnormal)
    subst none
    have exponent : (0 * 2 ^ 52 + significand) / 2 ^ 52 = 0 := by omega
    have fraction : (0 * 2 ^ 52 + significand) % 2 ^ 52 = significand := by omega
    rw [exponent, fraction, if_pos rfl]
  · rw [if_neg (by omega)]
    by_cases carries : significand = 2 ^ 53
    · have exponent : (place * 2 ^ 52 + significand) / 2 ^ 52 - 1 = place + 1 := by omega
      have fraction : (place * 2 ^ 52 + significand) % 2 ^ 52 = 0 := by omega
      rw [exponent, fraction, carries, Nat.pow_succ]
      ring
    · have exponent : (place * 2 ^ 52 + significand) / 2 ^ 52 - 1 = place := by omega
      have fraction : 2 ^ 52 + (place * 2 ^ 52 + significand) % 2 ^ 52 = significand := by omega
      rw [exponent, fraction]

def highest : Nat := 2045

def limit : Nat := 2 ^ (53 + highest)

section Order

variable {place significand top : Nat} (most : significand ≤ 2 ^ 53)
  (least : place ≠ 0 → 2 ^ 52 ≤ significand)

include most least

theorem laid_lt (some : top ≠ 0) (before : place * 2 ^ 52 + significand < (top + 2) * 2 ^ 52) :
    significand * 2 ^ place < 2 ^ (53 + top) := by
  rw [Nat.pow_add]
  rcases Nat.lt_or_ge place top with low | high
  · have less : 2 ^ place < 2 ^ top := Nat.pow_lt_pow_right Nat.one_lt_two low
    calc significand * 2 ^ place ≤ 2 ^ 53 * 2 ^ place := Nat.mul_le_mul_right _ most
      _ < 2 ^ 53 * 2 ^ top := Nat.mul_lt_mul_of_pos_left less (Nat.two_pow_pos _)
  · have last : place = top := by omega
    have fits : significand < 2 ^ 53 := by omega
    rw [last]
    exact Nat.mul_lt_mul_of_pos_right fits (Nat.two_pow_pos _)

theorem le_laid (behind : (top + 2) * 2 ^ 52 ≤ place * 2 ^ 52 + significand) :
    2 ^ (53 + top) ≤ significand * 2 ^ place := by
  rcases Nat.lt_or_ge top place with high | low
  · calc 2 ^ (53 + top) = 2 ^ 52 * 2 ^ (top + 1) := by
          rw [← Nat.pow_add, Nat.add_comm top, ← Nat.add_assoc]
      _ ≤ 2 ^ 52 * 2 ^ place := Nat.mul_le_mul_left _ (Nat.pow_le_pow_right Nat.two_pos high)
      _ ≤ significand * 2 ^ place := Nat.mul_le_mul_right _ (least (by omega))
  · have last : place = top := by omega
    have carries : significand = 2 ^ 53 := by omega
    rw [last, carries, Nat.pow_add]

end Order

theorem units_infinity (negative : Bool) : (infinity negative).units = limit := by
  have infinite : infinity negative = ofParts negative ((highest + 1) * 2 ^ 52 + 2 ^ 52) := rfl
  rw [infinite, units_ofParts negative (by decide) (by decide) (fun _ => Nat.le_refl _), limit,
    ← Nat.pow_add, Nat.add_comm highest, ← Nat.add_assoc]

theorem units_ofRatio (negative : Bool) (num : Nat) {den : Nat} (positive : 0 < den) :
    (ofRatio negative num den).units = min (rounded (num * 2 ^ unitBits) den) limit := by
  have laid : ofRatio negative num den =
      if lastBit (num * 2 ^ unitBits) den * 2 ^ 52 + significandOf (num * 2 ^ unitBits) den <
        (highest + 2) * 2 ^ 52 then
      ofParts negative
        (lastBit (num * 2 ^ unitBits) den * 2 ^ 52 + significandOf (num * 2 ^ unitBits) den)
      else infinity negative := by
    unfold ofRatio significandOf lastBit
    simp only [Nat.shiftLeft_eq]
    rfl
  rw [laid]
  split
  · rename_i finite
    have small : (highest + 2) * 2 ^ 52 < 2 ^ 63 := by decide
    have below : rounded (num * 2 ^ unitBits) den < limit :=
      laid_lt (significand_le positive) (le_significand positive) (by decide) finite
    rw [units_ofParts negative (Nat.lt_trans finite small) (significand_le positive)
      (le_significand positive), Nat.min_eq_left below.le]
    rfl
  · rename_i infinite
    have above : limit ≤ rounded (num * 2 ^ unitBits) den :=
      le_laid (significand_le positive) (le_significand positive) (Nat.le_of_not_lt infinite)
    rw [units_infinity, Nat.min_eq_right above]

theorem negative_ofRatio (negative : Bool) (num den : Nat) :
    (ofRatio negative num den).negative = negative := by
  unfold ofRatio
  dsimp only
  split
  · rename_i finite
    exact negative_ofParts (Nat.lt_trans finite (by decide)) negative
  · exact negative_ofParts (by decide) negative

theorem isNaN_ofRatio (negative : Bool) (num den : Nat) :
    (ofRatio negative num den).isNaN = false := by
  unfold ofRatio isNaN isFinite
  dsimp only
  split
  · rename_i finite
    have small : _ < 2 ^ 63 := Nat.lt_trans finite (by decide)
    have exponent : _ < 2047 := (Nat.div_lt_iff_lt_mul (Nat.two_pow_pos 52)).mpr finite
    rw [exponentField_ofParts small, bne_iff_ne.mpr exponent.ne]
    rfl
  · have fraction : (infinity negative).fractionField = 0 :=
      fractionField_ofParts (by decide) negative
    rw [fraction]
    exact Bool.and_false _

end Laying

section Operations

def ofNat (n : Nat) : Binary64 := ofRatio false n 1

def product (x y : Binary64) : Binary64 :=
  ofRatio (x.negative != y.negative) (x.units * y.units) (2 ^ (2 * unitBits))

def quotient (x y : Binary64) : Binary64 :=
  ofRatio (x.negative != y.negative) x.units y.units

def less (x y : Binary64) : Bool := !x.isNaN && !y.isNaN && x.value < y.value

def ceilWord (x : Binary64) : Nat :=
  if x.isNaN || x.negative then 0
  else min ((x.units + 2 ^ unitBits - 1) / 2 ^ unitBits) (2 ^ 64 - 1)

variable {n k e : Nat} {y : Binary64}

theorem lt_limit (few : n < 2 ^ 64) : n * 2 ^ unitBits < limit := by
  calc n * 2 ^ unitBits < 2 ^ 64 * 2 ^ unitBits :=
        Nat.mul_lt_mul_of_pos_right few (Nat.two_pow_pos _)
    _ = 2 ^ (64 + unitBits) := by rw [Nat.pow_add]
    _ ≤ 2 ^ (53 + highest) := Nat.pow_le_pow_right Nat.two_pos (by decide)

theorem representable_units (x : Binary64) : Representable x.units := by
  refine ⟨x.significand, x.shift, ?_, Nat.shiftLeft_eq _ _⟩
  have fraction : x.fractionField < 2 ^ 52 := by
    unfold fractionField fractionBits
    rw [Nat.one_shiftLeft]
    exact Nat.mod_lt _ (Nat.two_pow_pos _)
  unfold significand fractionBits
  rw [Nat.one_shiftLeft]
  split
  · omega
  · omega

theorem representable_scaled (representable : Representable n) (k : Nat) :
    Representable (2 ^ k * n) := by
  obtain ⟨m, s, few, rfl⟩ := representable
  refine ⟨m, k + s, few, ?_⟩
  rw [Nat.mul_left_comm, ← Nat.pow_add]

theorem representable_small (few : n < 2 ^ 53) : Representable n :=
  ⟨n, 0, few, (Nat.mul_one n).symm⟩

theorem units_ofNat (representable : Representable n) (few : n < 2 ^ 64) :
    (ofNat n).units = n * 2 ^ unitBits := by
  have exact : rounded (n * 2 ^ unitBits) 1 = n * 2 ^ unitBits := by
    apply rounded_exact Nat.one_pos _ (Nat.mul_one _).symm
    rw [Nat.mul_comm]
    exact representable_scaled representable _
  rw [ofNat, units_ofRatio false n Nat.one_pos, exact]
  exact Nat.min_eq_left (lt_limit few).le

theorem value_ofNat (representable : Representable n) (few : n < 2 ^ 64) :
    (ofNat n).value = (n * 2 ^ unitBits : Nat) := by
  have positive : (ofNat n).negative = false := negative_ofRatio _ _ _
  rw [value, positive, units_ofNat representable few]
  rfl

theorem units_of_negative (notNegative : 0 ≤ y.value) (negative : y.negative = true) :
    y.units = 0 := by
  unfold value at notNegative
  rw [negative, if_pos rfl] at notNegative
  omega

theorem value_of_units (notNegative : 0 ≤ y.value) : y.value = y.units := by
  cases sign : y.negative with
  | false => rw [value, sign, if_neg Bool.false_ne_true]
  | true =>
    rw [value, sign, if_pos rfl, units_of_negative notNegative sign]
    rfl

theorem value_product (notNegative : 0 ≤ y.value) (few : k < 64) :
    (product (ofNat (2 ^ k)) y).value = (min (2 ^ k * y.units) limit : Nat) := by
  have inside : 2 ^ k < 2 ^ 64 := Nat.pow_lt_pow_right Nat.one_lt_two few
  have positive : (ofNat (2 ^ k)).negative = false := negative_ofRatio _ _ _
  have divisor : 0 < 2 ^ (2 * unitBits) := Nat.two_pow_pos _
  have whole : (ofNat (2 ^ k)).units * y.units * 2 ^ unitBits =
      2 ^ k * y.units * 2 ^ (2 * unitBits) := by
    rw [units_ofNat (representable_pow k) inside, Nat.two_mul, Nat.pow_add]
    ring
  have units : (product (ofNat (2 ^ k)) y).units = min (2 ^ k * y.units) limit := by
    rw [product, units_ofRatio _ _ divisor, whole,
      rounded_exact divisor (representable_scaled (representable_units y) k) rfl]
  rw [value, product, negative_ofRatio, ← product, units, positive]
  cases sign : y.negative with
  | false => rfl
  | true => simp [units_of_negative notNegative sign]

@[simp] theorem isNaN_ofNat (n : Nat) : (ofNat n).isNaN = false := isNaN_ofRatio _ _ _

@[simp] theorem isNaN_product (x y : Binary64) : (product x y).isNaN = false :=
  isNaN_ofRatio _ _ _

@[simp] theorem isNaN_quotient (x y : Binary64) : (quotient x y).isNaN = false :=
  isNaN_ofRatio _ _ _

theorem less_product (notNegative : 0 ≤ y.value) (few : k < 64) (small : n < 2 ^ 53) :
    less (product (ofNat (2 ^ k)) y) (ofNat n) = decide (2 ^ k * y.units < n * 2 ^ unitBits) := by
  have inside : n < 2 ^ 64 := small.trans (by decide)
  rw [less, isNaN_ofNat, isNaN_product, value_product notNegative few,
    value_ofNat (representable_small small) inside, Bool.not_false, Bool.true_and, Bool.true_and,
    decide_eq_decide, Int.ofNat_lt, min_lt_iff]
  exact or_iff_left (lt_limit inside).not_gt

theorem product_less (notNegative : 0 ≤ y.value) (few : k < 64) (small : n < 2 ^ 53) :
    less (ofNat n) (product (ofNat (2 ^ k)) y) = decide (n * 2 ^ unitBits < 2 ^ k * y.units) := by
  have inside : n < 2 ^ 64 := small.trans (by decide)
  rw [less, isNaN_ofNat, isNaN_product, value_product notNegative few,
    value_ofNat (representable_small small) inside, Bool.not_false, Bool.true_and, Bool.true_and,
    decide_eq_decide, Int.ofNat_lt, lt_min_iff]
  exact and_iff_left (lt_limit inside)

/-- Numbers of 53 bits that differ at all differ by more than half of the last bit. -/
theorem gap {a b s t : Nat} (first : a < 2 ^ 53) (second : b < 2 ^ 53)
    (more : b * 2 ^ t < a * 2 ^ s) : (2 ^ 53 + 1) * (b * 2 ^ t) < 2 ^ 53 * (a * 2 ^ s) := by
  have apart : ∀ x y : Nat, x < 2 ^ 53 → x < y → (2 ^ 53 + 1) * x < 2 ^ 53 * y := by
    intro x y few less
    omega
  have scaled : ∀ x y u : Nat, x < 2 ^ 53 → x * 2 ^ u < y * 2 ^ u →
      (2 ^ 53 + 1) * (x * 2 ^ u) < 2 ^ 53 * (y * 2 ^ u) := by
    intro x y u few less
    rw [← Nat.mul_assoc, ← Nat.mul_assoc]
    apply Nat.mul_lt_mul_of_pos_right _ (Nat.two_pow_pos u)
    exact apart x y few (Nat.lt_of_mul_lt_mul_right less)
  rcases Nat.le_total t s with le | le
  · have parts : a * 2 ^ s = a * 2 ^ (s - t) * 2 ^ t := by
      rw [Nat.mul_assoc, ← Nat.pow_add, Nat.sub_add_cancel le]
    rw [parts] at more ⊢
    exact scaled _ _ _ second more
  · have parts : b * 2 ^ t = b * 2 ^ (t - s) * 2 ^ s := by
      rw [Nat.mul_assoc, ← Nat.pow_add, Nat.sub_add_cancel le]
    rw [parts] at more ⊢
    exact scaled _ _ _ ((Nat.lt_of_mul_lt_mul_right more).trans first) more

theorem units_quotient (positive : 0 < y.units) (small : n < 2 ^ 53) :
    (quotient (ofNat n) y).units = min (rounded (n * 2 ^ (2 * unitBits)) y.units) limit := by
  have inside : n < 2 ^ 64 := small.trans (by decide)
  have scaled : (ofNat n).units * 2 ^ unitBits = n * 2 ^ (2 * unitBits) := by
    rw [units_ofNat (representable_small small) inside, Nat.two_mul, Nat.pow_add, Nat.mul_assoc]
  rw [quotient, units_ofRatio _ _ positive, scaled]

/-- A quotient that is rounded exceeds no more powers of two than before, and no fewer. -/
theorem rounded_le_pow (positive : 0 < y.units) (small : n < 2 ^ 53) :
    rounded (n * 2 ^ (2 * unitBits)) y.units ≤ 2 ^ (e + unitBits) ↔
      n * 2 ^ unitBits ≤ 2 ^ e * y.units := by
  have scaled : n * 2 ^ (2 * unitBits) ≤ 2 ^ (e + unitBits) * y.units ↔
      n * 2 ^ unitBits ≤ 2 ^ e * y.units := by
    rw [Nat.two_mul, Nat.pow_add, Nat.pow_add, ← Nat.mul_assoc, Nat.mul_right_comm (2 ^ e)]
    exact Nat.mul_le_mul_right_iff (Nat.two_pow_pos _)
  rw [← scaled]
  constructor
  · intro fits
    by_contra! more
    obtain ⟨m, s, few, parts⟩ := representable_units y
    have further := @gap n m (2 * unitBits) (s + (e + unitBits)) small few (by
      rw [Nat.pow_add, ← Nat.mul_assoc, ← parts, Nat.mul_comm]
      exact more)
    rw [Nat.pow_add, ← Nat.mul_assoc m, ← parts, Nat.mul_comm y.units] at further
    have place : e + unitBits = 52 + (e + (unitBits - 52)) := by
      have : 52 ≤ unitBits := by decide
      omega
    rw [place] at further fits
    exact absurd fits (Nat.not_le_of_lt (pow_lt_rounded positive further))
  · exact rounded_le positive (representable_pow _)

theorem ceilWord_quotient (notNegative : y.negative = false) (positive : 0 < y.units)
    (small : n < 2 ^ 53) (few : e < 64) :
    ceilWord (quotient (ofNat n) y) ≤ 2 ^ e ↔ n * 2 ^ unitBits ≤ 2 ^ e * y.units := by
  have sign : (quotient (ofNat n) y).negative = false := by
    rw [quotient, negative_ofRatio, ofNat, negative_ofRatio, notNegative]
    rfl
  have inWord : 2 ^ e < 2 ^ 64 - 1 :=
    Nat.lt_of_le_of_lt (Nat.pow_le_pow_right Nat.two_pos (Nat.le_of_lt_succ few)) (by decide)
  have unit : 0 < 2 ^ unitBits := Nat.two_pow_pos _
  have finite : 2 ^ (e + unitBits) < limit :=
    Nat.pow_lt_pow_right Nat.one_lt_two (by
      have : 64 + unitBits ≤ 53 + highest := by decide
      omega)
  have ceiling : ∀ u, (u + 2 ^ unitBits - 1) / 2 ^ unitBits ≤ 2 ^ e ↔ u ≤ 2 ^ (e + unitBits) := by
    intro u
    rw [← Nat.lt_succ_iff, Nat.div_lt_iff_lt_mul unit, Nat.succ_mul, ← Nat.pow_add]
    omega
  rw [ceilWord, isNaN_quotient, sign, if_neg (by decide), min_le_iff,
    or_iff_left (Nat.not_le_of_lt inWord), ceiling, units_quotient positive small, min_le_iff,
    or_iff_left (Nat.not_le_of_lt finite), rounded_le_pow positive small]

theorem half_le (x : Binary64) : (half x).units ≤ x.units := by
  have divisor : 0 < 1 <<< (unitBits + 1) := by
    rw [Nat.one_shiftLeft]
    exact Nat.two_pow_pos _
  rw [half, units_ofRatio _ _ divisor]
  refine (Nat.min_le_left _ _).trans (rounded_le divisor (representable_units x) ?_)
  rw [Nat.one_shiftLeft]
  exact Nat.mul_le_mul_left _ (Nat.pow_le_pow_right Nat.two_pos (Nat.le_succ _))

end Operations

section Fractions

def rational (x : Binary64) : ℚ := x.value / 2 ^ unitBits

variable {y : Binary64} (notNegative : 0 ≤ y.value) (b n : Nat)

include notNegative

theorem scaled_lt : b * y.rational < n ↔ b * y.units < n * 2 ^ unitBits := by
  have unit : (0 : ℚ) < 2 ^ unitBits := by positivity
  rw [rational, value_of_units notNegative, mul_div_assoc', div_lt_iff₀ unit]
  exact_mod_cast Iff.rfl

theorem lt_scaled : n < b * y.rational ↔ n * 2 ^ unitBits < b * y.units := by
  have unit : (0 : ℚ) < 2 ^ unitBits := by positivity
  rw [rational, value_of_units notNegative, mul_div_assoc', lt_div_iff₀ unit]
  exact_mod_cast Iff.rfl

end Fractions

end MemIndex.Binary64
