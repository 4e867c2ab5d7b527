import MemIndex.Digest

/- Where a skip list draws the heights of its nodes from. -/
namespace MemIndex

/-- A source of draws below 65536. -/
class DrawSource (γ : Type) where
  draw : γ → Nat × γ

structure Xoshiro where
  s0 : UInt64
  s1 : UInt64
  s2 : UInt64
  s3 : UInt64
  deriving DecidableEq, Repr

namespace Xoshiro

def next (g : Xoshiro) : UInt64 × Xoshiro :=
  let result := rotateLeft (g.s0 + g.s3) 23 + g.s0
  let s2 := g.s2 ^^^ g.s0
  let s3 := g.s3 ^^^ g.s1
  (result,
    { s0 := g.s0 ^^^ s3
      s1 := g.s1 ^^^ s2
      s2 := s2 ^^^ (g.s1 <<< 17)
      s3 := rotateLeft s3 45 })

def spread (state : UInt64) : UInt64 := state * 6364136223846793005 + 11634580027462260723

def mixed (state : UInt64) : UInt32 :=
  let word := (((state >>> 18) ^^^ state) >>> 27).toUInt32
  let turn := (state >>> 59).toUInt32
  (word >>> turn) ||| (word <<< ((32 - turn) % 32))

def words : Nat → UInt64 → List UInt32
  | 0, _ => []
  | n + 1, state =>
    let state := spread state
    mixed state :: words n state

def pair (low high : UInt32) : UInt64 := low.toUInt64 ||| (high.toUInt64 <<< 32)

def ofSeed (seed : UInt64) : Xoshiro :=
  match words 8 seed with
  | [a, b, c, d, e, f, g, h] => ⟨pair a b, pair c d, pair e f, pair g h⟩
  | _ => ⟨0, 0, 0, 0⟩

/-- A draw is the low half of the upper half of the next word. -/
instance : DrawSource Xoshiro where
  draw g :=
    let (word, g) := g.next
    ((word >>> 32).toNat % 65536, g)

end Xoshiro

end MemIndex
