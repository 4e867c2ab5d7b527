import MemIndex.Binary64

/- The shortest decimal that reads back as a given binary number. -/
namespace MemIndex

structure Decimal where
  coefficient : Nat
  exponent : Int
  deriving DecidableEq, Repr

namespace Decimal

/-- The numbers that round to a binary number: those between `low` and `high`, with both ends or
without. The three bounds are counted in quarters of a unit. -/
structure Interval where
  low : Nat
  center : Nat
  high : Nat
  closed : Bool
  deriving DecidableEq, Repr

/-- Below a power of two the numbers lie twice as close. -/
def Interval.around (x : Binary64) : Interval :=
  let m := x.significand
  let below := if x.fractionField = 0 ∧ 1 < x.exponentField then 4 * m - 1 else 4 * m - 2
  { low := below <<< x.shift
    center := (4 * m) <<< x.shift
    high := (4 * m + 2) <<< x.shift
    closed := m % 2 = 0 }

def gridRatio (quarters : Nat) (exponent : Int) : Nat × Nat :=
  (quarters * Nat.pow 10 (-exponent).toNat,
    Nat.pow 10 exponent.toNat <<< (Binary64.unitBits + 2))

def Interval.holds (interval : Interval) (coefficient : Nat) (exponent : Int) : Bool :=
  let (low, unit) := gridRatio interval.low exponent
  let (high, _) := gridRatio interval.high exponent
  let point := coefficient * unit
  if interval.closed then low ≤ point ∧ point ≤ high else low < point ∧ point < high

/-- The multiple of `10 ^ exponent` that lies in the interval nearest to its center, looked for
on both sides of the center. Of two equally near the greater is taken. -/
def Interval.nearest? (interval : Interval) (exponent : Int) : Option Decimal :=
  let (num, den) := gridRatio interval.center exponent
  let floor := num / den
  let up := den ≤ 2 * (num % den)
  let tried := if up then [floor + 1, floor] else [floor, floor + 1]
  (tried.find? fun c => c != 0 && interval.holds c exponent).map fun c => ⟨c, exponent⟩

def Interval.top (interval : Interval) : Int :=
  ((interval.high.log2 : Int) - (Binary64.unitBits + 2 : Nat)) * 30103 / 100000 + 2

/-- Grids are tried from the coarsest on. Seventeen digits tell all numbers apart, so the bounded
search meets a hit. -/
def shortest (x : Binary64) : Decimal :=
  if x.significand = 0 then ⟨0, 0⟩
  else
    let interval := Interval.around x
    let grids := (List.range 24).map fun (i : Nat) => interval.top - (i : Int)
    (grids.findSome? interval.nearest?).getD ⟨0, 0⟩

end Decimal

end MemIndex
