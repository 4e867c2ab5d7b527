/- Binary floating-point numbers of 64 bits, taken apart with integer arithmetic. A finite value
   is a whole multiple of 2^-1074, the least positive one, so exact comparison is integer
   comparison. -/
namespace MemIndex

structure Binary64 where
  bits : UInt64
  deriving DecidableEq, Repr

namespace Binary64

/-- Exact values are counted in units of 2^-1074. -/
def unitBits : Nat := 1074

def fractionBits : Nat := 52

def negative (x : Binary64) : Bool := 9223372036854775808 ≤ x.bits

def exponentField (x : Binary64) : Nat := (x.bits.toNat >>> fractionBits) % 2048

def fractionField (x : Binary64) : Nat := x.bits.toNat % (1 <<< fractionBits)

def isFinite (x : Binary64) : Bool := x.exponentField != 2047

def isNaN (x : Binary64) : Bool := !x.isFinite && x.fractionField != 0

def significand (x : Binary64) : Nat :=
  if x.exponentField = 0 then x.fractionField else (1 <<< fractionBits) + x.fractionField

def shift (x : Binary64) : Nat := x.exponentField - 1

def units (x : Binary64) : Nat := x.significand <<< x.shift

def value (x : Binary64) : Int := if x.negative then -(x.units : Int) else x.units

def ofParts (negative : Bool) (magnitude : Nat) : Binary64 :=
  ⟨UInt64.ofNat (if negative then magnitude + (1 <<< 63) else magnitude)⟩

def infinity (negative : Bool) : Binary64 := ofParts negative (2047 <<< fractionBits)

def nan : Binary64 := ofParts false (4095 <<< 51)

def nearestEven (num den : Nat) : Nat :=
  let floor := num / den
  let rest := 2 * (num % den)
  if rest < den then floor
  else if den < rest then floor + 1
  else floor + floor % 2

/-- The number nearest to a quotient. The significand is rounded to 53 bits, or to whole units
where that is coarser. Laid over the exponent it carries into it, so a significand that rounds
up to the next power of two needs no case of its own. -/
def ofRatio (negative : Bool) (num den : Nat) : Binary64 :=
  let scaled := num <<< unitBits
  let shift := (scaled / den).log2 - fractionBits
  let magnitude := (shift <<< fractionBits) + nearestEven scaled (den <<< shift)
  if magnitude < 2047 <<< fractionBits then ofParts negative magnitude else infinity negative

def half (x : Binary64) : Binary64 := ofRatio x.negative x.units (1 <<< (unitBits + 1))

end Binary64

end MemIndex
