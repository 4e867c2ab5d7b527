import MemIndex.Binary64

/- Numbers as scores: a total order on all 64-bit patterns that agrees with the order of values.
   The negative zero comes before the positive one, and what is no number lies at the two ends. -/
namespace MemIndex

structure Score where
  number : Binary64
  deriving DecidableEq, Repr

namespace Score

/-- Negative patterns count downwards, so all their bits but the sign are flipped. The flipping
mask is the sign bit spread over the word and shifted off the sign. -/
def orderWord (s : Score) : Int64 :=
  let word := s.number.bits.toInt64
  word ^^^ ((word >>> 63).toUInt64 >>> 1).toInt64

instance : Ord Score := ⟨fun a b => compare a.orderWord b.orderWord⟩

instance : BEq Score := ⟨fun a b => compare a b == .eq⟩

def partialCompare (a b : Score) : Option Ordering := some (compare a b)

def less (a b : Score) : Bool := a.partialCompare b == some .lt

def max (a b : Score) : Score := if compare a b == .gt then a else b

def min (a b : Score) : Score := if compare a b == .gt then b else a

def zero : Score := ⟨⟨0⟩⟩

end Score

structure Scored where
  score : Score
  member : String
  deriving DecidableEq, Repr

instance : Ord Scored where
  compare a b := (compare a.score b.score).then (compare a.member b.member)

end MemIndex
