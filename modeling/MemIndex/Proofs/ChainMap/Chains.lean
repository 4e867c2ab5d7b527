import Mathlib.Data.List.Nodup
import MemIndex.Proofs.ChainMap.Rows
import MemIndex.Proofs.FreeSlots

/- Chains of entries in a store. A chain is a list of placed pairs; what the store must hold for it
   is computed from the list, so a change of the store keeps a chain when it misses its slots. -/
namespace MemIndex.ChainMap

variable {K V : Type}

abbrev Placed (K V : Type) := Nat × K × V

abbrev Memory (K V : Type) := Nat → Option (Entry K V)

def slotsOf (chain : List (Placed K V)) : List Nat := chain.map (·.1)

def chainHead (chain : List (Placed K V)) : Option Nat := chain.head?.map (·.1)

/-- The entries of a chain with their links. The last one links to `stop`. -/
def threaded : List (Placed K V) → Option Nat → List (Nat × Entry K V)
  | [], _ => []
  | (slot, key, value) :: rest, stop =>
    (slot, ⟨key, value, (chainHead rest).or stop⟩) :: threaded rest stop

def Holds (memory : Memory K V) (chain : List (Placed K V)) (stop : Option Nat) : Prop :=
  ∀ x ∈ threaded chain stop, memory x.1 = some x.2

theorem threaded_append (front back : List (Placed K V)) (stop : Option Nat) :
    threaded (front ++ back) stop =
      threaded front ((chainHead back).or stop) ++ threaded back stop := by
  induction front with
  | nil => rfl
  | cons x rest ih =>
    obtain ⟨slot, key, value⟩ := x
    simp only [List.cons_append, threaded, ih]
    congr 3
    cases rest <;> simp [chainHead]

theorem threaded_slots (chain : List (Placed K V)) (stop : Option Nat) :
    (threaded chain stop).map (·.1) = slotsOf chain := by
  induction chain with
  | nil => rfl
  | cons x rest ih => simpa [threaded, slotsOf] using ih

theorem threaded_pairs (chain : List (Placed K V)) (stop : Option Nat) :
    (threaded chain stop).map (fun x => (x.1, x.2.pair)) = chain := by
  induction chain with
  | nil => rfl
  | cons x rest ih =>
    simp only [threaded, List.map_cons, ih]
    rfl

theorem holds_append {memory : Memory K V} {front back : List (Placed K V)} {stop : Option Nat} :
    Holds memory (front ++ back) stop ↔
      Holds memory front ((chainHead back).or stop) ∧ Holds memory back stop := by
  simp only [Holds, threaded_append, List.mem_append]
  constructor
  · intro all
    exact ⟨fun x member => all x (Or.inl member), fun x member => all x (Or.inr member)⟩
  · rintro ⟨front, back⟩ x (member | member)
    · exact front x member
    · exact back x member

theorem holds_nil {memory : Memory K V} {stop : Option Nat} : Holds memory [] stop := by
  simp [Holds, threaded]

theorem holds_cons {memory : Memory K V} {slot : Nat} {key : K} {value : V}
    {rest : List (Placed K V)} {stop : Option Nat} :
    Holds memory ((slot, key, value) :: rest) stop ↔
      memory slot = some ⟨key, value, (chainHead rest).or stop⟩ ∧ Holds memory rest stop := by
  simp [Holds, threaded]

theorem holds_frame {memory changed : Memory K V} {chain : List (Placed K V)} {stop : Option Nat}
    (holds : Holds memory chain stop) (same : ∀ slot ∈ slotsOf chain, changed slot = memory slot) :
    Holds changed chain stop := by
  intro x member
  rw [same x.1, holds x member]
  rw [← threaded_slots chain stop]
  exact List.mem_map_of_mem member

theorem holds_update {memory : Memory K V} {chain : List (Placed K V)} {stop : Option Nat}
    (holds : Holds memory chain stop) {slot : Nat} (elsewhere : slot ∉ slotsOf chain)
    (entry : Option (Entry K V)) : Holds (Function.update memory slot entry) chain stop := by
  refine holds_frame holds fun other member => Function.update_of_ne ?_ _ _
  rintro rfl
  exact elsewhere member

theorem memory_of_holds {memory : Memory K V} {chain : List (Placed K V)} {stop : Option Nat}
    (holds : Holds memory chain stop) {slot : Nat} {key : K} {value : V}
    (member : (slot, key, value) ∈ chain) : ∃ next, memory slot = some ⟨key, value, next⟩ := by
  rw [← threaded_pairs chain stop] at member
  obtain ⟨⟨slot, entry⟩, inChain, same⟩ := List.mem_map.mp member
  cases same
  exact ⟨entry.next, holds _ inChain⟩

/-- Taking an entry out of the middle of a chain: the one before it then links to what follows. -/
theorem holds_bypass {memory : Memory K V} {before after : List (Placed K V)}
    {previous slot : Nat} {first entry : K × V}
    (holds : Holds memory (before ++ (previous, first) :: (slot, entry) :: after) none)
    (distinct : (slotsOf (before ++ (previous, first) :: (slot, entry) :: after)).Nodup)
    (left : Option (Entry K V)) :
    Holds (Function.update (Function.update memory previous
      (some ⟨first.1, first.2, chainHead after⟩)) slot left)
      (before ++ (previous, first) :: after) none := by
  simp only [slotsOf, List.map_append, List.map_cons, List.nodup_append, List.nodup_cons,
    List.mem_cons, not_or] at distinct
  obtain ⟨front, link⟩ := holds_append.mp holds
  have back := (holds_cons.mp (holds_cons.mp link).2).2
  have apart : slot ≠ previous := fun same => distinct.2.1.1.1 same.symm
  have missesFront : ∀ other ∈ slotsOf before, other ≠ previous ∧ other ≠ slot :=
    fun other member =>
    ⟨distinct.2.2 other member previous (Or.inl rfl),
      distinct.2.2 other member slot (Or.inr (Or.inl rfl))⟩
  refine holds_append.mpr ⟨holds_frame front fun other member => ?_, holds_cons.mpr ⟨?_, ?_⟩⟩
  · obtain ⟨notPrevious, notSlot⟩ := missesFront other member
    rw [Function.update_of_ne notSlot, Function.update_of_ne notPrevious]
  · rw [Function.update_of_ne (Ne.symm apart), Function.update_self]
    simp
  · exact holds_update (holds_update back distinct.2.1.1.2 _) distinct.2.1.2.1 _

theorem holds_rewrite {memory : Memory K V} {before after : List (Placed K V)} {slot : Nat}
    {key : K} {old : V} (holds : Holds memory (before ++ (slot, key, old) :: after) none)
    (distinct : (slotsOf (before ++ (slot, key, old) :: after)).Nodup) (value : V) :
    Holds (Function.update memory slot (some ⟨key, value, chainHead after⟩))
      (before ++ (slot, key, value) :: after) none := by
  simp only [slotsOf, List.map_append, List.map_cons, List.nodup_append, List.nodup_cons,
    List.mem_cons] at distinct
  obtain ⟨-, ⟨notAfter, -⟩, apart⟩ := distinct
  obtain ⟨front, back⟩ := holds_append.mp holds
  have tail := (holds_cons.mp back).2
  have notBefore : slot ∉ slotsOf before := fun member => apart slot member slot (Or.inl rfl) rfl
  refine holds_append.mpr ⟨holds_update front notBefore _, holds_cons.mpr ⟨?_, ?_⟩⟩
  · simp
  · exact holds_update tail notAfter _

theorem linkedFrom_ok {store : Store K V} {chain : List (Placed K V)} {fuel : Nat}
    (holds : Holds store.get? chain none) (enough : chain.length ≤ fuel) :
    linkedFrom store fuel (chainHead chain) = .ok (threaded chain none) := by
  induction chain generalizing fuel with
  | nil => simp [chainHead, linkedFrom, threaded]
  | cons x rest ih =>
    obtain ⟨slot, key, value⟩ := x
    obtain ⟨here, tail⟩ := holds_cons.mp holds
    cases fuel with
    | zero => simp at enough
    | succ fuel =>
      have next := ih tail (by simpa using enough)
      simp only [Option.or_none] at here
      simp [chainHead, linkedFrom, threaded, Arena.read_ok here] at next ⊢
      simp [next]

end MemIndex.ChainMap
