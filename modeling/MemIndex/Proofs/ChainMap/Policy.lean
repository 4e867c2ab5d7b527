import Mathlib.Order.Bounds.Basic
import MemIndex.Proofs.ChainMap.Safety
import MemIndex.Proofs.Rounding

/- When a table changes size, and to which. The thresholds are products and the size is a quotient,
   but a table is of the size it should have exactly when no threshold is passed, and this
   stays so when products and quotients are rounded. -/
namespace MemIndex.ChainMap

open Binary64

namespace Config

section Rounded

variable (config : Config) (len buckets : Nat)

def overloadedRounded : Bool := less (product (ofNat buckets) config.loadFactor) (ofNat len)

/-- As `fittingBuckets`, with a rounded quotient. A power of two that is no word is no size. -/
def fittingRounded : Option Nat :=
  let needed := ceilPowerOfTwo (quotient (ofNat len) config.loadFactor).ceilWord
  if needed < 2 ^ 64 then some (max needed config.minBuckets) else none

def sparseRounded : Option Bool :=
  if config.minBuckets < len ∧ less (ofNat len) (product (ofNat buckets) config.shrinkFactor) then
    (config.fittingRounded len).map (decide <| · < buckets)
  else some false

end Rounded

structure Policy (config : Config) : Prop where
  least : ∀ len : Nat, IsLeast
    {b : Nat | (∃ k, b = 2 ^ k) ∧ config.minBuckets ≤ b ∧
      (len : ℚ) ≤ b * config.loadFactor.rational}
    (config.fittingBuckets len)
  heavy : ∀ len buckets : Nat, config.overloaded len buckets = true ↔
    buckets * config.loadFactor.rational < len
  light : ∀ len buckets : Nat, config.sparse len buckets = true ↔
    config.minBuckets < len ∧ len < buckets * config.shrinkFactor.rational ∧
      config.fittingBuckets len < buckets
  exclusive : ∀ len buckets, config.overloaded len buckets = true →
    config.sparse len buckets = false
  grows : ∀ len buckets, config.overloaded len buckets = true →
    buckets < config.fittingBuckets len
  shrinks : ∀ len buckets, config.sparse len buckets = true →
    config.fittingBuckets len < buckets
  settled : ∀ len, config.resizeDue len (config.fittingBuckets len) = false

/-- Rounding changes no decision about a table, as long as its entries can be counted in 53 bits
and its next size is a word. -/
structure Robust (config : Config) : Prop where
  overloaded : ∀ len k, len < 2 ^ 53 → k < 64 →
    config.overloadedRounded len (2 ^ k) = config.overloaded len (2 ^ k)
  fitting : ∀ len, len < 2 ^ 53 → config.fittingBuckets len < 2 ^ 64 →
    config.fittingRounded len = some (config.fittingBuckets len)
  sparse : ∀ len k, len < 2 ^ 53 → k < 64 → config.fittingBuckets len < 2 ^ 64 →
    config.sparseRounded len (2 ^ k) = some (config.sparse len (2 ^ k))

section Factors

variable {config : Config} (valid : config.Valid)

include valid

theorem rounded_valid : config.rounded.Valid := by
  obtain ⟨-, others⟩ := (valid_iff config).mp valid
  obtain ⟨k, power⟩ := rounded_minBuckets config
  refine (valid_iff config.rounded).mpr ⟨?_, others⟩
  rw [power]
  exact (Nat.two_pow_pos k).ne'

theorem factors_of_valid : 0 < config.loadFactor.value ∧ 0 ≤ config.shrinkFactor.value ∧
    config.shrinkFactor.value ≤ config.maxShrinkFactor.value := by
  obtain ⟨-, ⟨-, load⟩, ⟨-, shrink⟩, -⟩ := (valid_iff config).mp valid
  exact ⟨load, shrink⟩

theorem loadFactor_positive : config.loadFactor.negative = false := by
  have positive := (factors_of_valid valid).1
  cases sign : config.loadFactor.negative with
  | false => rfl
  | true =>
    have none := units_of_negative positive.le sign
    rw [value_of_units positive.le, none] at positive
    exact absurd positive (by decide)

theorem shrinkFactor_le : config.shrinkFactor.units ≤ config.loadFactor.units := by
  obtain ⟨positive, notNegative, atMost⟩ := factors_of_valid valid
  have half := half_le config.loadFactor
  have sign : config.maxShrinkFactor.negative = false := by
    rw [maxShrinkFactor, Binary64.half, negative_ofRatio, loadFactor_positive valid]
  rw [value_of_units notNegative, value, sign, if_neg Bool.false_ne_true] at atMost
  exact (Int.ofNat_le.mp atMost).trans half

end Factors

section Sizes

variable {config : Config} (positive : 0 < config.loadFactor.units) {len buckets : Nat}

include positive

theorem not_overloaded (len : Nat) :
    config.overloaded len (config.fittingBuckets len) = false := by
  rw [← neededBuckets_le_iff positive]
  exact (le_ceilPowerOfTwo _).trans (Nat.le_max_left _ _)

theorem lt_fittingBuckets (heavy : config.overloaded len buckets = true) :
    buckets < config.fittingBuckets len :=
  (lt_neededBuckets positive heavy).trans_le
    ((le_ceilPowerOfTwo _).trans (Nat.le_max_left _ _))

theorem fittingBuckets_le_pow {k : Nat} (least : config.minBuckets ≤ 2 ^ k)
    (fits : config.overloaded len (2 ^ k) = false) : config.fittingBuckets len ≤ 2 ^ k :=
  Nat.max_le.mpr ⟨ceilPowerOfTwo_le_pow ((neededBuckets_le_iff positive _ _).mpr fits), least⟩

omit positive in
theorem sparse_iff : config.sparse len buckets = true ↔ config.minBuckets < len ∧
    len * 2 ^ unitBits < buckets * config.shrinkFactor.units ∧
      config.fittingBuckets len < buckets := by
  rw [sparse, Bool.and_eq_true, Bool.and_eq_true, decide_eq_true_iff, decide_eq_true_iff,
    decide_eq_true_iff, Nat.shiftLeft_eq, and_assoc]

theorem fitting_settled (len : Nat) : config.resizeDue len (config.fittingBuckets len) = false := by
  have notSparse : config.sparse len (config.fittingBuckets len) = false := by
    rw [← Bool.not_eq_true, sparse_iff]
    exact fun few => Nat.lt_irrefl _ few.2.2
  rw [resizeDue, not_overloaded positive, notSparse]
  rfl

end Sizes

theorem ceilPowerOfTwo_congr {m n : Nat} (alike : ∀ e, e < 64 → (m ≤ 2 ^ e ↔ n ≤ 2 ^ e))
    (word : ceilPowerOfTwo n < 2 ^ 64) : ceilPowerOfTwo m = ceilPowerOfTwo n := by
  obtain ⟨i, first⟩ := ceilPowerOfTwo_eq_pow m
  obtain ⟨j, second⟩ := ceilPowerOfTwo_eq_pow n
  rw [second] at word
  have inWord : j < 64 := (Nat.pow_lt_pow_iff_right Nat.one_lt_two).mp word
  have atMost : ceilPowerOfTwo m ≤ ceilPowerOfTwo n := by
    rw [second]
    exact ceilPowerOfTwo_le_pow ((alike j inWord).mpr (second ▸ le_ceilPowerOfTwo n))
  have also : i < 64 := by
    rw [first, second] at atMost
    exact ((Nat.pow_le_pow_iff_right Nat.one_lt_two).mp atMost).trans_lt inWord
  apply Nat.le_antisymm atMost
  rw [first]
  exact ceilPowerOfTwo_le_pow ((alike i also).mp (first ▸ le_ceilPowerOfTwo m))

section Policies

variable {config : Config} (valid : config.Valid)

include valid

theorem overloaded_iff (len buckets : Nat) : config.overloaded len buckets = true ↔
    buckets * config.loadFactor.rational < len := by
  rw [scaled_lt (factors_of_valid valid).1.le, overloaded, decide_eq_true_iff, Nat.shiftLeft_eq]

theorem valid_policy (power : ∃ k, config.minBuckets = 2 ^ k) : Policy config where
  least len := by
    have positive := units_positive valid
    constructor
    · refine ⟨fittingBuckets_eq_pow power len, minBuckets_le_fittingBuckets _ _, ?_⟩
      rw [← not_lt, ← overloaded_iff valid, not_overloaded positive]
      exact Bool.false_ne_true
    · rintro b ⟨⟨k, rfl⟩, least, fits⟩
      apply fittingBuckets_le_pow positive least
      rw [← Bool.not_eq_true, overloaded_iff valid, not_lt]
      exact fits
  heavy := overloaded_iff valid
  light len buckets := by rw [lt_scaled (factors_of_valid valid).2.1, sparse_iff]
  exclusive len buckets heavy := by
    have fewer := Nat.mul_le_mul_left buckets (shrinkFactor_le valid)
    rw [overloaded, decide_eq_true_iff, Nat.shiftLeft_eq] at heavy
    rw [← Bool.not_eq_true, sparse_iff]
    rintro ⟨-, light, -⟩
    omega
  grows len buckets heavy := lt_fittingBuckets (units_positive valid) heavy
  shrinks len buckets light := (sparse_iff.mp light).2.2
  settled := fitting_settled (units_positive valid)

theorem valid_robust : Robust config := by
  obtain ⟨load, shrink, -⟩ := factors_of_valid valid
  have positive := units_positive valid
  have fitting : ∀ len, len < 2 ^ 53 → config.fittingBuckets len < 2 ^ 64 →
      config.fittingRounded len = some (config.fittingBuckets len) := by
    intro len small word
    have inWord := (Nat.max_lt.mp word).1
    have same : ceilPowerOfTwo (quotient (ofNat len) config.loadFactor).ceilWord =
        ceilPowerOfTwo (config.neededBuckets len) := by
      apply ceilPowerOfTwo_congr _ inWord
      intro e few
      rw [ceilWord_quotient (loadFactor_positive valid) positive small few,
        neededBuckets_le_iff positive, overloaded, decide_eq_false_iff_not, Nat.shiftLeft_eq,
        Nat.not_lt]
    simp only [fittingRounded, same, if_pos inWord]
    rfl
  refine ⟨?_, fitting, ?_⟩
  · intro len k small few
    rw [overloadedRounded, less_product load.le few small, overloaded, Nat.shiftLeft_eq]
  · intro len k small few word
    rw [sparseRounded, product_less shrink few small, fitting len small word, Option.map_some]
    split
    · rename_i both
      rw [sparse, decide_eq_true both.1, Nat.shiftLeft_eq, both.2]
      rfl
    · rename_i notBoth
      congr 1
      rw [eq_comm, ← Bool.not_eq_true, sparse_iff]
      intro light
      exact notBoth ⟨light.1, decide_eq_true light.2.1⟩

end Policies

end Config

variable {K V : Type}

def Begins (map : ChainMap K V) (target : Table) : Prop :=
  target.buckets = map.config.fittingBuckets map.active.len ∧
    map.startResize = .ok ({ map with phase := .resizing 0 target },
      [.started map.active.len map.active.buckets target.buckets])

/-- What a map without a running resize does about its size. A resize that runs to its end in one
go leaves nothing to be done. -/
structure Resizes (map : ChainMap K V) : Prop where
  still : map.config.resizeDue map.active.len map.active.buckets = false →
    map.startResize = .ok (map, [])
  grows : map.config.overloaded map.active.len map.active.buckets = true →
    ∃ target, map.Begins target ∧ map.active.buckets < target.buckets
  shrinks : map.config.sparse map.active.len map.active.buckets = true →
    ∃ target, map.Begins target ∧ target.buckets < map.active.buckets
  exclusive : map.config.overloaded map.active.len map.active.buckets = true →
    map.config.sparse map.active.len map.active.buckets = false
  settles : map.config.resizeDue map.active.len map.active.buckets = true →
    ∃ outcome, map.rehash map.active.buckets = .ok outcome ∧ outcome.answer = false ∧
      outcome.state.active.len = map.active.len ∧
      outcome.state.active.buckets = map.config.fittingBuckets map.active.len ∧
      outcome.state.startResize = .ok (outcome.state, [])

section Maps

variable {map : ChainMap K V} {p : Plain K V}

theorem buckets_blank (n : Nat) : (Table.blank n).buckets = n := Array.size_replicate

theorem startResize_idle (stable : map.isResizing = false)
    (still : map.config.resizeDue map.active.len map.active.buckets = false) :
    map.startResize = .ok (map, []) := by
  rw [startResize, stable, still]
  rfl

theorem startResize_due (valid : map.config.Valid) (power : ∃ k, map.config.minBuckets = 2 ^ k)
    (stable : map.isResizing = false)
    (due : map.config.resizeDue map.active.len map.active.buckets = true) :
    map.Begins (.blank (map.config.fittingBuckets map.active.len)) := by
  have other := Config.fittingBuckets_ne (Config.units_positive valid) due
  obtain ⟨k, size⟩ := Config.fittingBuckets_eq_pow power map.active.len
  refine ⟨buckets_blank _, ?_⟩
  rw [startResize, stable, due, if_neg (by simp), if_neg other.symm, buckets_blank, size,
    Table.ofBuckets_pow]
  rfl

theorem relocate_whole (tidy : p.Tidy) (stable : p.moving = none)
    (due : p.config.resizeDue p.active.flatten.length p.active.length = true) :
    let q := (p.startResize.1.relocate p.active.length).1
    q.moving = none ∧ q.active.length = p.config.fittingBuckets p.active.flatten.length ∧
      q.active.flatten.length = p.active.flatten.length ∧ q.config = p.config := by
  intro q
  have kept : q.entries.length = p.entries.length := by
    rw [Plain.length_relocate (Plain.startResize_tidy tidy), Plain.entries_startResize]
  have settings : q.config = p.config :=
    (Plain.settings_relocate _).2.trans Plain.settings_startResize.2
  let fitting : Nat := p.config.fittingBuckets p.active.flatten.length
  let begun : Plain K V := { p with moving := some (0, List.replicate fitting []) }
  have started : p.startResize.1 = begun := by
    rw [Plain.startResize, stable, due]
    rfl
  have moved : q = { begun with
      active := (begun.shifted 0 p.active.length (List.replicate fitting [])).2
      moving := none } := by
    rcases Plain.relocate_cases p.startResize.1 p.active.length with
      ⟨none, -⟩ | ⟨cursor, target, moving, ⟨more, -⟩ | ⟨-, done⟩⟩
    · rw [started] at none
      cases none
    · rw [started] at more
      exact absurd more (Nat.not_lt.mpr (Nat.le_add_left _ _))
    · rw [started] at moving
      cases moving
      refine done.trans ?_
      rw [started]
      rfl
  have emptied : q.moving = none := by rw [moved]
  have length : q.active.length = fitting := by
    rw [moved]
    simp only [Plain.shifted, Rows.length_shifts_target, List.length_replicate]
  simp only [Plain.entries, Plain.target, emptied, stable, List.flatten_nil, List.append_nil] at kept
  exact ⟨emptied, length, kept, settings⟩

theorem settles_of_depicts (depicts : Depicts map p) (stable : map.isResizing = false)
    (due : map.config.resizeDue map.active.len map.active.buckets = true) :
    ∃ outcome, map.rehash map.active.buckets = .ok outcome ∧ outcome.answer = false ∧
      outcome.state.active.len = map.active.len ∧
      outcome.state.active.buckets = map.config.fittingBuckets map.active.len ∧
      outcome.state.startResize = .ok (outcome.state, []) := by
  obtain ⟨buckets, len, config⟩ := sizes_of_represents depicts.represents
  obtain ⟨given, valid, rounded⟩ := depicts.tidy.config
  have notMoving : p.moving = none := by
    rw [isResizing_refines depicts.represents] at stable
    simpa using stable
  rw [buckets, len, config] at due
  obtain ⟨ended, size, same, settings⟩ := relocate_whole depicts.tidy notMoving due
  obtain ⟨outcome, done, answer, -, after⟩ := rehash_depicts depicts p.active.length
  obtain ⟨newBuckets, newLen, newConfig⟩ := sizes_of_represents after.represents
  have positive : 0 < p.config.loadFactor.units := by
    rw [rounded]
    exact Config.units_positive (Config.rounded_valid valid)
  have finished : outcome.state.isResizing = false := by
    rw [isResizing_refines after.represents, ended]
    rfl
  rw [buckets, len, config]
  refine ⟨outcome, done, ?_, ?_, ?_, startResize_idle finished ?_⟩
  · rw [answer, ended]
    rfl
  · rw [newLen, same]
  · rw [newBuckets, size]
  · rw [newBuckets, newLen, newConfig, size, same, settings]
    exact Config.fitting_settled positive _

theorem depicts_resizes (depicts : Depicts map p) (stable : map.isResizing = false) :
    map.Resizes := by
  obtain ⟨given, valid, rounded⟩ := depicts.tidy.config
  rw [← (sizes_of_represents depicts.represents).2.2] at rounded
  have accepted : map.config.Valid := by
    rw [rounded]
    exact Config.rounded_valid valid
  have power : ∃ k, map.config.minBuckets = 2 ^ k := by
    rw [rounded]
    exact Config.rounded_minBuckets given
  have policy := Config.valid_policy accepted power
  refine ⟨startResize_idle stable, fun heavy => ?_, fun light => ?_, policy.exclusive _ _,
    settles_of_depicts depicts stable⟩
  · have due : map.config.resizeDue map.active.len map.active.buckets = true := by
      rw [Config.resizeDue, heavy, Bool.true_or]
    refine ⟨_, startResize_due accepted power stable due, ?_⟩
    rw [buckets_blank]
    exact policy.grows _ _ heavy
  · have due : map.config.resizeDue map.active.len map.active.buckets = true := by
      rw [Config.resizeDue, light, Bool.or_true]
    refine ⟨_, startResize_due accepted power stable due, ?_⟩
    rw [buckets_blank]
    exact policy.shrinks _ _ light

variable [BEq K]

/-- For all accepted settings the size that a table should have is the least power of two, of those
it may have, that its entries do not overload, with exact factors as well as with rounded products
and quotients. So a table that grows gets larger, one that shrinks gets smaller, none is due for
both, and no resize is due after one that has brought a table to its size. -/
theorem sizes_settle :
    (∀ given : Config, given.Valid → given.rounded.Policy ∧ given.rounded.Robust) ∧
      ∀ (hash : K → UInt64) (map : ChainMap K V), Reachable hash map →
        ∃ given : Config, given.Valid ∧ map.config = given.rounded ∧
          (map.isResizing = false → map.Resizes) := by
  constructor
  · intro given valid
    have accepted := Config.rounded_valid valid
    exact ⟨Config.valid_policy accepted (Config.rounded_minBuckets given),
      Config.valid_robust accepted⟩
  · intro hash map reachable
    obtain ⟨p, depicts, -⟩ := reachable_depicts reachable
    obtain ⟨given, valid, rounded⟩ := depicts.tidy.config
    rw [← (sizes_of_represents depicts.represents).2.2] at rounded
    exact ⟨given, valid, rounded, depicts_resizes depicts⟩

/-- At least 3 buckets, a load factor of 0.75 and a shrink factor of 0.3; and a map that is due to
grow, with five entries in four buckets. -/
theorem sizes_settle_words :
    (∃ given : Config, given = ⟨3, ⟨4604930618986332160⟩, ⟨4599075939470750515⟩, .auto⟩ ∧
        given.rounded.Policy ∧ given.rounded.Robust) ∧
      ∃ map : ChainMap UInt64 Nat,
        Op.run (.extend [(1, 10), (2, 20), (3, 30), (4, 40), (5, 50)]) (build {} id) =
            .ok (.done, map) ∧
          map.config.overloaded map.active.len map.active.buckets = true ∧ map.Resizes := by
  obtain ⟨configs, maps⟩ := @sizes_settle UInt64 Nat _
  constructor
  · exact ⟨_, rfl, configs _ ((Config.valid_iff _).mpr (by decide +kernel))⟩
  · have start : Reachable id (build {} id : ChainMap UInt64 Nat) :=
      build_reachable Config.default_valid id
    have filled : ∃ map : ChainMap UInt64 Nat,
        Op.run (.extend [(1, 10), (2, 20), (3, 30), (4, 40), (5, 50)]) (build {} id) =
            .ok (.done, map) ∧ map.isResizing = false ∧
          map.config.overloaded map.active.len map.active.buckets = true :=
      ⟨_, rfl, rfl, by decide +kernel⟩
    obtain ⟨map, ran, stable, heavy⟩ := filled
    obtain ⟨given, -, -, resizes⟩ := maps id map (start.step ran)
    exact ⟨map, ran, heavy, resizes stable⟩

end Maps

end MemIndex.ChainMap
