/- Texts that are compared without regard to the case of the letters A to Z. The spelling is
   kept, so equal texts can be told apart by it. -/
namespace MemIndex

structure Caseless where
  text : String
  deriving Repr

namespace Caseless

def folded (c : Caseless) : String := c.text.map Char.toLower

instance : BEq Caseless := ⟨fun a b => a.folded == b.folded⟩

instance : Ord Caseless := ⟨fun a b => compare a.folded b.folded⟩

end Caseless

end MemIndex
