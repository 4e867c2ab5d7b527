import MemIndex.Decimal.Layout

/- The settings of a chained map and the conditions they must meet. -/
namespace MemIndex.ChainMap

inductive Pace where
  | fixed (buckets : Nat)
  | full
  /-- The work is spread over as many operations as the factor between the two table sizes says,
  but over no more of them than there are buckets. -/
  | auto
  deriving DecidableEq, Repr

structure Config where
  minBuckets : Nat := 4
  loadFactor : Binary64 := ⟨4607182418800017408⟩
  shrinkFactor : Binary64 := ⟨4591870180066957722⟩
  pace : Pace := .fixed 2
  deriving DecidableEq, Repr

inductive ConfigError where
  | minBuckets
  | loadFactor (given : Binary64)
  | shrinkFactor (most given : Binary64)
  | pace
  deriving DecidableEq, Repr

def ConfigError.message (error : ConfigError) : String :=
  "invalid config: " ++ match error with
    | .minBuckets => "min_buckets must be non-zero"
    | .loadFactor given =>
      s!"load_factor must be positive and finite, got {given.write Decimal.plain}"
    | .shrinkFactor most given =>
      s!"shrink_factor must be in [0, {most.write Decimal.plain}], got " ++
        given.write Decimal.plain
    | .pace => "rehash step must be non-zero"

namespace Config

/-- Above half of the load factor a table that has just shrunk would be due to grow. -/
def maxShrinkFactor (config : Config) : Binary64 := config.loadFactor.half

/-- The first condition that fails is the one reported. A negative zero is a zero. -/
def validate (config : Config) : Except ConfigError Unit :=
  if config.minBuckets = 0 then .error .minBuckets
  else if !config.loadFactor.isFinite ∨ config.loadFactor.value ≤ 0 then
    .error (.loadFactor config.loadFactor)
  else if !config.shrinkFactor.isFinite ∨ config.shrinkFactor.value < 0 ∨
      config.maxShrinkFactor.value < config.shrinkFactor.value then
    .error (.shrinkFactor config.maxShrinkFactor config.shrinkFactor)
  else if config.pace = .fixed 0 then .error .pace
  else .ok ()

def Valid (config : Config) : Prop := config.validate = .ok ()

end Config

end MemIndex.ChainMap
