import MemIndex.Proofs.ChainMap.Layout

/- Relocating buckets. While one is emptied its entries float: they are stored, but on no chain of
   either table. The chain is read before its first entry is attached, so the links that attaching
   overwrites are not needed any more. -/
namespace MemIndex.ChainMap

variable {K V : Type}

structure Floats (transfer : Transfer K V) (floating : List (Placed K V))
    (active target : Rows (Placed K V)) : Prop where
  owns : Owns transfer.store (floating ++ (active.flatten ++ target.flatten))
  activeLays : transfer.active.Lays transfer.store.get? active
  targetLays : transfer.target.Lays transfer.store.get? target
  held : ∀ x ∈ floating, ∃ next, transfer.store.get? x.1 = some ⟨x.2.1, x.2.2, next⟩
  activeLen : transfer.active.len = active.flatten.length + floating.length + transfer.moved
  targetLen : transfer.target.len = target.flatten.length

def hashPlaced (hash : K → UInt64) (placed : Placed K V) : UInt64 := hash placed.2.1

section Floating

variable (hash : K → UInt64) {transfer : Transfer K V} {floating : List (Placed K V)}
  {active target : Rows (Placed K V)}

theorem entry_ok {slot : Nat} {key : K} {value : V}
    (floats : Floats transfer ((slot, key, value) :: floating) active target)
    (positive : 0 < target.length) (link : Option Nat) :
    ∃ next, Transfer.entry hash transfer (slot, ⟨key, value, link⟩) = .ok next ∧
      next.active = transfer.active ∧
      Floats next floating active (target.put (hash key) (slot, key, value)) := by
  have all := floats.owns.distinct
  unfold slotsOf at all
  rw [List.cons_append, List.map_cons] at all
  obtain ⟨fresh, distinct⟩ := List.nodup_cons.mp all
  simp only [List.map_append, List.mem_append, not_or] at fresh distinct
  obtain ⟨notFloating, notActive, notTarget⟩ := fresh
  have targetDistinct : target.slots.Nodup :=
    (List.nodup_append.mp (List.nodup_append.mp distinct).2.1).2.1
  obtain ⟨stop, held⟩ := floats.held _ List.mem_cons_self
  obtain ⟨attached, store, done, result⟩ :=
    Table.attach_ok floats.owns.sound floats.targetLays positive targetDistinct (hash key) held
      notTarget
  have perm := Rows.put_perm positive (hash key) (slot, key, value)
  refine ⟨⟨transfer.active, attached, store, transfer.moved + 1⟩, by simp [Transfer.entry, done],
    rfl, ?_, ?_, result.lays, fun x member => ?_, ?_, ?_⟩
  · apply owns_perm (owns_same floats.owns result.sound result.len result.occupied)
    refine List.perm_middle.symm.trans (List.Perm.append_left floating ?_)
    exact List.perm_middle.symm.trans (perm.symm.append_left _)
  · refine Table.lays_frame floats.activeLays fun other member => result.elsewhere other ?_
    rintro rfl
    exact notActive member
  · obtain ⟨next, there⟩ := floats.held x (List.mem_cons_of_mem _ member)
    have differ : x.1 ≠ slot := by
      intro same
      exact notFloating (same ▸ List.mem_map_of_mem member)
    exact ⟨next, (result.elsewhere x.1 differ).trans there⟩
  · have := floats.activeLen
    rw [List.length_cons] at this
    change transfer.active.len = _ + (transfer.moved + 1)
    omega
  · rw [result.counted, perm.length_eq, List.length_cons, floats.targetLen]

theorem entries_ok {chain : List (Placed K V)} (floats : Floats transfer chain active target)
    (positive : 0 < target.length) (stop : Option Nat) :
    ∃ next, (threaded chain stop).foldlM (Transfer.entry hash) transfer = .ok next ∧
      next.active = transfer.active ∧
      Floats next [] active (Rows.pour (hashPlaced hash) target chain) := by
  induction chain generalizing transfer target with
  | nil => exact ⟨transfer, rfl, rfl, floats⟩
  | cons x rest ih =>
    obtain ⟨slot, key, value⟩ := x
    obtain ⟨mid, first, midActive, midFloats⟩ :=
      entry_ok hash floats positive ((chainHead rest).or stop)
    obtain ⟨next, done, same, nextFloats⟩ := ih midFloats (by simpa using positive)
    refine ⟨next, ?_, same.trans midActive, nextFloats⟩
    simp [threaded, first, done]

theorem bucket_ok (floats : Floats transfer [] active target) (positive : 0 < target.length)
    {bucket : Nat} (inside : bucket < active.length) :
    ∃ next, Transfer.bucket hash transfer bucket = .ok next ∧
      next.active.len = transfer.active.len ∧
      Floats next [] (Rows.shift (hashPlaced hash) (active, target) bucket).1
        (Rows.shift (hashPlaced hash) (active, target) bucket).2 := by
  let row := active.row bucket
  have part : active.flatten.length ≤ (active.flatten ++ target.flatten).length := by simp
  have short := short_of_owns floats.owns part bucket
  have chain := Table.chain_ok floats.activeLays inside short
  have distinct : active.slots.Nodup := by
    have all := floats.owns.distinct
    rw [List.nil_append, slotsOf, List.map_append] at all
    exact (List.nodup_append.mp all).1
  have exchanged : ((active.set bucket []).flatten ++ row).Perm active.flatten := by
    simpa using Rows.flatten_set_perm inside []
  let opened : Transfer K V := { transfer with active := transfer.active.setHead bucket none }
  have opened_floats : Floats opened row (active.set bucket []) target := by
    refine ⟨?_, ?_, floats.targetLays, fun x member => ?_, ?_, floats.targetLen⟩
    · apply owns_perm floats.owns
      apply (exchanged.symm.append_right _).trans
      rw [List.append_assoc]
      exact List.perm_append_comm_assoc _ _ _
    · refine Table.lays_set floats.activeLays distinct (Table.setHead_heads floats.activeLays _ [])
        ?_ fun _ _ _ => rfl
      simp [Holds, threaded]
    · exact memory_of_holds (floats.activeLays.held bucket) member
    · have total := exchanged.length_eq
      have := floats.activeLen
      rw [List.length_append] at total
      change transfer.active.len = _ + transfer.moved
      simp only [List.length_nil] at this
      omega
  obtain ⟨next, done, same, nextFloats⟩ := entries_ok hash opened_floats positive none
  refine ⟨next, ?_, ?_, nextFloats⟩
  · simp only [Transfer.bucket, chain, ok_bind]
    exact done
  · rw [same]
    rfl

theorem buckets_ok {buckets : List Nat} (floats : Floats transfer [] active target)
    (positive : 0 < target.length) (inside : ∀ bucket ∈ buckets, bucket < active.length) :
    ∃ next, buckets.foldlM (Transfer.bucket hash) transfer = .ok next ∧
      next.active.len = transfer.active.len ∧
      Floats next [] (buckets.foldl (Rows.shift (hashPlaced hash)) (active, target)).1
        (buckets.foldl (Rows.shift (hashPlaced hash)) (active, target)).2 := by
  induction buckets generalizing transfer active target with
  | nil => exact ⟨transfer, rfl, rfl, floats⟩
  | cons bucket rest ih =>
    obtain ⟨mid, first, midLen, midFloats⟩ :=
      bucket_ok hash floats positive (inside bucket List.mem_cons_self)
    obtain ⟨next, done, len, nextFloats⟩ := ih midFloats (by simpa [Rows.shift] using positive)
      fun other member => by simpa [Rows.shift] using inside other (List.mem_cons_of_mem _ member)
    refine ⟨next, ?_, len.trans midLen, nextFloats⟩
    simp [first, done]

end Floating

end MemIndex.ChainMap
