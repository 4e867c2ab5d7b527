import MemIndex.Caseless

/- Hash functions on words and texts, fed a byte at a time. -/
namespace MemIndex

def reverseBits (word : UInt64) : UInt64 := ⟨word.toBitVec.reverse⟩

def rotateLeft (word : UInt64) (places : UInt64) : UInt64 :=
  (word <<< places) ||| (word >>> (64 - places))

structure Digest where
  start : UInt64
  byte : UInt64 → UInt8 → UInt64
  word : UInt64 → UInt64 → UInt64
  finish : UInt64 → UInt64

namespace Digest

def ofWord (digest : Digest) (word : UInt64) : UInt64 :=
  digest.finish (digest.word digest.start word)

/-- A text ends with a byte that occurs in none. -/
def ofText (digest : Digest) (text : String) : UInt64 :=
  digest.finish (digest.byte (text.toUTF8.foldl digest.byte digest.start) 255)

def ofCaseless (digest : Digest) (c : Caseless) : UInt64 := digest.ofText c.folded

def identity : Digest where
  start := 0
  byte state b := rotateLeft state 8 ^^^ b.toUInt64
  word _ w := w
  finish state := state

def fnvByte (state : UInt64) (b : UInt8) : UInt64 := (state ^^^ b.toUInt64) * 1099511628211

def bytes (word : UInt64) : List UInt8 :=
  (List.range 8).map fun i => (word >>> UInt64.ofNat (8 * i)).toUInt8

def fnv1a : Digest where
  start := 14695981039346656037
  byte := fnvByte
  word state w := (bytes w).foldl fnvByte state
  finish state := state

def constant (word : UInt64) : Digest := { identity with finish := fun _ => word }

/-- The two halves of the word change places, so small keys differ only above the mask. -/
def swapped : Digest := { identity with finish := fun state => rotateLeft state 32 }

def lowTwo : Digest := { identity with finish := fun state => state &&& 3 }

def reversed : Digest := { identity with finish := reverseBits }

end Digest

end MemIndex
