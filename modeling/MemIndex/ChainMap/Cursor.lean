import MemIndex.Digest

/- Cursors that count through the buckets of a table with the bits reversed. A bucket of a small
   table and the buckets of a larger one that it spreads over share their low bits, so they are
   visited one after another, and a part that is done stays done when the table changes size. -/
namespace MemIndex.ChainMap.Cursor

/-- The cursor after a visit to its bucket in a table with the given mask. The bits above the mask
are set so that adding one in reverse carries right into the masked ones. -/
def advance (cursor mask : UInt64) : UInt64 :=
  reverseBits (reverseBits (cursor ||| ~~~mask) + 1)

end MemIndex.ChainMap.Cursor
