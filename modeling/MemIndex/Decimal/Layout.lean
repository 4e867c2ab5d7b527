import MemIndex.Decimal.Shortest

/- How numbers are written: digits around a point, or digits and a power of ten. -/
namespace MemIndex

structure Decimal.Layout where
  whole : String
  /-- The powers of ten, with the first not below and the second above the number, between which
  no exponent is written. -/
  positional : Option (Int × Int)
  deriving DecidableEq, Repr

namespace Decimal

def plain : Layout := ⟨"", none⟩

/-- Whole numbers show a point, and an exponent stands outside of 0.0001 to 10^16. -/
def explicit : Layout := ⟨".0", some (-4, 16)⟩

def leading (d : Decimal) : Int := d.exponent + (toString d.coefficient).length - 1

def zeros (n : Nat) : String := String.ofList (List.replicate n '0')

def writePositional (layout : Layout) (d : Decimal) : String :=
  let digits := toString d.coefficient
  if 0 ≤ d.exponent then digits ++ zeros d.exponent.toNat ++ layout.whole
  else
    let places := (-d.exponent).toNat
    let padded := (zeros (places + 1 - digits.length) ++ digits).toList
    let point := padded.length - places
    String.ofList (padded.take point) ++ "." ++ String.ofList (padded.drop point)

def writeScientific (d : Decimal) : String :=
  let exponent := toString d.leading
  match (toString d.coefficient).toList with
  | first :: second :: rest =>
    String.ofList (first :: '.' :: second :: rest) ++ "e" ++ exponent
  | digits => String.ofList digits ++ "e" ++ exponent

def write (layout : Layout) (d : Decimal) : String :=
  match layout.positional with
  | some (least, most) =>
    if d.coefficient = 0 then writePositional layout d
    else if least ≤ d.leading ∧ d.leading < most then writePositional layout d
    else writeScientific d
  | none => writePositional layout d

end Decimal

def Binary64.write (layout : Decimal.Layout) (x : Binary64) : String :=
  if x.isNaN then "NaN"
  else
    let magnitude := if x.isFinite then (Decimal.shortest x).write layout else "inf"
    if x.negative then "-" ++ magnitude else magnitude

end MemIndex
