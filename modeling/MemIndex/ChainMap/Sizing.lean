import MemIndex.ChainMap.Config
import MemIndex.ChainMap.Table

/- When a table is resized and to how many buckets. The factors are binary numbers, compared and
   divided exactly in units.

   Sizes are without bound. With a load factor like 1e-300, or a least number of buckets above
   2 ^ 63, the size wanted is 2 ^ 64 or more, and it is taken as it is, ever larger. In words the
   quotient would stop at 2 ^ 64 - 1, and no power of two above it is a word: there
   `Config.fittingRounded` has no size to give. -/
namespace MemIndex.ChainMap.Config

def overloaded (config : Config) (len buckets : Nat) : Bool :=
  buckets * config.loadFactor.units < len <<< Binary64.unitBits

def neededBuckets (config : Config) (len : Nat) : Nat :=
  ((len <<< Binary64.unitBits) + config.loadFactor.units - 1) / config.loadFactor.units

def fittingBuckets (config : Config) (len : Nat) : Nat :=
  max (ceilPowerOfTwo (config.neededBuckets len)) config.minBuckets

def sparse (config : Config) (len buckets : Nat) : Bool :=
  config.minBuckets < len &&
    len <<< Binary64.unitBits < buckets * config.shrinkFactor.units &&
    config.fittingBuckets len < buckets

def resizeDue (config : Config) (len buckets : Nat) : Bool :=
  config.overloaded len buckets || config.sparse len buckets

def rounded (config : Config) : Config :=
  { config with minBuckets := ceilPowerOfTwo config.minBuckets }

end MemIndex.ChainMap.Config
