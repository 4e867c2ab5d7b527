import MemIndex.ChainSet
import MemIndex.Decimal.Layout
import MemIndex.Score
import MemIndex.SkipList.Run
import MemIndex.Text.Quoted
import MemIndex.Text.Shape

/- How indexes and what they hold are shown. -/
namespace MemIndex.Text

class Display (α : Type) where
  shape : α → Shape

open Display (shape)

instance : Display Nat := ⟨fun n => .atom (toString n)⟩

instance : Display Int := ⟨fun n => .atom (toString n)⟩

instance : Display UInt64 := ⟨fun n => .atom (toString n.toNat)⟩

instance : Display String := ⟨fun text => .atom (quoted text)⟩

instance : Display Caseless := ⟨fun c => shape c.text⟩

instance : Display Score := ⟨fun s => .atom (s.number.write Decimal.explicit)⟩

instance : Display Scored := ⟨fun s => .tuple [shape s.score, shape s.member]⟩

variable {K V γ : Type} [Display K] [Display V]

def ofPairs (pairs : List (K × V)) : Shape :=
  .braces (pairs.map fun (key, value) => .pair (shape key) (shape value))

def ofMap (map : ChainMap K V) : Except Fault Shape := return ofPairs (← map.listing)

def ofSet (set : ChainSet K) : Except Fault Shape :=
  return .braces ((← set.listing).map shape)

def ofSkipList (list : SkipList K V γ) : Except Fault Shape := return ofPairs (← list.toList)

end MemIndex.Text
