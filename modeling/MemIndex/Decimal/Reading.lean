import MemIndex.Binary64

/- Reading a decimal numeral as the nearest binary number. -/
namespace MemIndex

namespace Decimal

def takeDigits (cs : List Char) : Nat × Nat × List Char :=
  let digits := cs.takeWhile Char.isDigit
  (digits.foldl (fun n c => 10 * n + (c.toNat - '0'.toNat)) 0, digits.length,
    cs.dropWhile Char.isDigit)

def takeSign : List Char → Bool × List Char
  | '-' :: rest => (true, rest)
  | '+' :: rest => (false, rest)
  | cs => (false, cs)

def readExponent : List Char → Option Int
  | [] => some 0
  | c :: rest =>
    if c = 'e' ∨ c = 'E' then
      let (negative, rest) := takeSign rest
      let (value, count, rest) := takeDigits rest
      if count = 0 ∨ rest ≠ [] then none else some (if negative then -(value : Int) else value)
    else none

/-- The number nearest to `coefficient * 10 ^ exponent`. A number of that many places before or
after the point is too large or too small to need its powers of ten. -/
def nearest (negative : Bool) (coefficient : Nat) (exponent : Int) : Binary64 :=
  let places := exponent + (toString coefficient).length
  if coefficient = 0 ∨ places < -330 then .ofParts negative 0
  else if 310 < places then .infinity negative
  else .ofRatio negative (coefficient * Nat.pow 10 exponent.toNat) (Nat.pow 10 (-exponent).toNat)

def readMagnitude (negative : Bool) (cs : List Char) : Option Binary64 :=
  let (whole, wholeCount, rest) := takeDigits cs
  let (part, partCount, rest) := match rest with
    | '.' :: rest => takeDigits rest
    | _ => (0, 0, rest)
  if wholeCount + partCount = 0 then none
  else (readExponent rest).map fun exponent =>
    nearest negative (whole * Nat.pow 10 partCount + part) (exponent - (partCount : Int))

end Decimal

def Binary64.read? (text : String) : Option Binary64 :=
  let (negative, rest) := Decimal.takeSign text.toList
  match (String.ofList (rest.map Char.toLower)) with
  | "nan" => some (if negative then .ofParts true nan.bits.toNat else nan)
  | "inf" | "infinity" => some (infinity negative)
  | _ => Decimal.readMagnitude negative rest

end MemIndex
