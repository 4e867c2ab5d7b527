/- The settings of a skip list and the conditions they must meet. -/
namespace MemIndex.SkipList

def levelLimit : Nat := 64

structure Config where
  maxLevels : Nat := levelLimit
  /-- One node in so many reaches the next level. -/
  levelRatio : Nat := 4
  seed : Option UInt64 := none
  deriving DecidableEq, Repr

inductive ConfigError where
  | maxLevels (given : Nat)
  | levelRatio (given : Nat)
  deriving DecidableEq, Repr

def ConfigError.message (error : ConfigError) : String :=
  "invalid config: " ++ match error with
    | .maxLevels given => s!"max_level must be in 1..={levelLimit}, got {given}"
    | .levelRatio given => s!"level_ratio must be at least 2, got {given}"

namespace Config

def validate (config : Config) : Except ConfigError Unit :=
  if config.maxLevels = 0 ∨ levelLimit < config.maxLevels then
    .error (.maxLevels config.maxLevels)
  else if config.levelRatio < 2 then .error (.levelRatio config.levelRatio)
  else .ok ()

def Valid (config : Config) : Prop := config.validate = .ok ()

end Config

end MemIndex.SkipList
