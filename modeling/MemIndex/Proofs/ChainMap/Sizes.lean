import Mathlib.Algebra.Ring.Nat
import MemIndex.ChainMap.Sizing

/- Table sizes are powers of two, and a resize that is due always has another size as its goal. -/
namespace MemIndex.ChainMap

theorem ceilPowerOfTwo_eq_pow (n : Nat) : ∃ k, ceilPowerOfTwo n = 2 ^ k := by
  unfold ceilPowerOfTwo
  split
  · exact ⟨0, rfl⟩
  · exact ⟨_, Nat.one_shiftLeft _⟩

theorem le_ceilPowerOfTwo (n : Nat) : n ≤ ceilPowerOfTwo n := by
  unfold ceilPowerOfTwo
  split
  · omega
  · rename_i large
    rw [Nat.one_shiftLeft]
    have := Nat.lt_log2_self (n := n - 1)
    omega

theorem ceilPowerOfTwo_le_pow {n k : Nat} (fits : n ≤ 2 ^ k) : ceilPowerOfTwo n ≤ 2 ^ k := by
  unfold ceilPowerOfTwo
  split
  · exact Nat.one_le_two_pow
  · rename_i large
    rw [Nat.one_shiftLeft]
    have less : (n - 1).log2 < k := (Nat.log2_lt (by omega)).mpr (by omega)
    exact Nat.pow_le_pow_right (by decide) less

@[simp] theorem ceilPowerOfTwo_pow (k : Nat) : ceilPowerOfTwo (2 ^ k) = 2 ^ k :=
  Nat.le_antisymm (ceilPowerOfTwo_le_pow (Nat.le_refl _)) (le_ceilPowerOfTwo _)

theorem Table.ofBuckets_pow (k : Nat) : ofBuckets (2 ^ k) = .ok (blank (2 ^ k)) := by
  simp [ofBuckets]

namespace Config

/-- The conditions that settings must meet, whichever of them is looked at first. -/
theorem valid_iff (config : Config) : config.Valid ↔ config.minBuckets ≠ 0 ∧
    (config.loadFactor.isFinite = true ∧ 0 < config.loadFactor.value) ∧
    (config.shrinkFactor.isFinite = true ∧ 0 ≤ config.shrinkFactor.value ∧
      config.shrinkFactor.value ≤ config.maxShrinkFactor.value) ∧ config.pace ≠ .fixed 0 := by
  have refused : ∀ {rest : Except ConfigError Unit} {broken : Prop} [Decidable broken]
      {error : ConfigError}, (if broken then .error error else rest) = .ok () ↔
        ¬ broken ∧ rest = .ok () := by
    intro rest broken _ error
    by_cases holds : broken <;> simp [holds]
  simp only [Valid, validate, refused, not_or, Bool.not_eq_true', Bool.not_eq_false, Int.not_le,
    Int.not_lt, ne_eq, and_true]

theorem units_positive {config : Config} (valid : config.Valid) : 0 < config.loadFactor.units := by
  obtain ⟨-, ⟨-, positive⟩, -⟩ := (valid_iff config).mp valid
  rw [Binary64.value] at positive
  split at positive <;> omega

theorem default_valid : ({} : Config).Valid := (valid_iff _).mpr (by decide +kernel)

theorem single_valid : ({ pace := .fixed 1 } : Config).Valid :=
  (valid_iff _).mpr (by decide +kernel)

theorem rounded_minBuckets (config : Config) : ∃ k, config.rounded.minBuckets = 2 ^ k :=
  ceilPowerOfTwo_eq_pow config.minBuckets

theorem fittingBuckets_eq_pow {config : Config} (rounded : ∃ k, config.minBuckets = 2 ^ k)
    (len : Nat) : ∃ k, config.fittingBuckets len = 2 ^ k := by
  obtain ⟨i, least⟩ := rounded
  obtain ⟨j, needed⟩ := ceilPowerOfTwo_eq_pow (config.neededBuckets len)
  unfold fittingBuckets
  rw [least, needed, Nat.max_def]
  split
  · exact ⟨i, rfl⟩
  · exact ⟨j, rfl⟩

theorem minBuckets_le_fittingBuckets (config : Config) (len : Nat) :
    config.minBuckets ≤ config.fittingBuckets len := Nat.le_max_right _ _

theorem neededBuckets_le_iff {config : Config} (positive : 0 < config.loadFactor.units)
    (len buckets : Nat) :
    config.neededBuckets len ≤ buckets ↔ config.overloaded len buckets = false := by
  unfold neededBuckets overloaded
  rw [← Nat.lt_succ_iff, Nat.div_lt_iff_lt_mul positive, Nat.succ_mul, decide_eq_false_iff_not]
  omega

theorem lt_neededBuckets {config : Config} (positive : 0 < config.loadFactor.units)
    {len buckets : Nat} (heavy : config.overloaded len buckets = true) :
    buckets < config.neededBuckets len := by
  rw [← Nat.not_le, neededBuckets_le_iff positive, heavy]
  exact nofun

theorem fittingBuckets_ne {config : Config} (positive : 0 < config.loadFactor.units)
    {len buckets : Nat} (due : config.resizeDue len buckets = true) :
    config.fittingBuckets len ≠ buckets := by
  simp only [resizeDue, Bool.or_eq_true] at due
  rcases due with heavy | few
  · have more := lt_neededBuckets positive heavy
    have enough := le_ceilPowerOfTwo (config.neededBuckets len)
    have fits : ceilPowerOfTwo (config.neededBuckets len) ≤ config.fittingBuckets len :=
      Nat.le_max_left _ _
    omega
  · simp only [sparse, Bool.and_eq_true, decide_eq_true_eq] at few
    omega

end Config

end MemIndex.ChainMap
