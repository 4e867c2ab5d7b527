import Mathlib.Data.List.Nodup
import MemIndex.Proofs.ChainMap.Chains

/- Tables whose chains lie in a store, against lists of lists. Reading a bucket reads its list, and
   attaching files an entry first in it. -/
namespace MemIndex.ChainMap

variable {K V : Type}

/-- The heads of a table lead to these chains, and the memory holds them. -/
structure Table.Lays (table : Table) (memory : Memory K V) (rows : Rows (Placed K V)) : Prop where
  heads : table.heads.toList = rows.map chainHead
  held : ∀ bucket, Holds memory (rows.row bucket) none

def Rows.slots (rows : Rows (Placed K V)) : List Nat := slotsOf rows.flatten

theorem Rows.mem_slots {rows : Rows (Placed K V)} {bucket slot : Nat}
    (member : slot ∈ slotsOf (rows.row bucket)) : slot ∈ rows.slots := by
  obtain ⟨x, inRow, rfl⟩ := List.mem_map.mp member
  exact List.mem_map_of_mem (Rows.mem_flatten_iff.mpr ⟨bucket, inRow⟩)

theorem Rows.nodup_row {rows : Rows (Placed K V)} (distinct : rows.slots.Nodup) (bucket : Nat) :
    (slotsOf (rows.row bucket)).Nodup := by
  by_cases inside : bucket < rows.length
  · refine distinct.sublist (List.Sublist.map _ ?_)
    exact List.sublist_flatten_of_mem (List.mem_of_getElem? (Rows.getElem?_of_lt inside))
  · simp [Rows.row_of_length_le (Nat.le_of_not_lt inside), slotsOf]

theorem Rows.bucket_unique {rows : Rows (Placed K V)} (distinct : rows.slots.Nodup)
    {bucket other slot : Nat} (here : slot ∈ slotsOf (rows.row bucket))
    (there : slot ∈ slotsOf (rows.row other)) : bucket = other := by
  have inside : ∀ b, slot ∈ slotsOf (rows.row b) → b < rows.length := by
    intro b member
    by_contra beyond
    simp [Rows.row_of_length_le (Nat.le_of_not_lt beyond), slotsOf] at member
  have apart : (rows.map slotsOf).Pairwise List.Disjoint := by
    unfold Rows.slots slotsOf at distinct
    rw [List.map_flatten] at distinct
    exact (List.nodup_flatten.mp distinct).2
  have never : ∀ i j, i < j → slot ∈ slotsOf (rows.row i) → slot ∉ slotsOf (rows.row j) := by
    intro i j less inI inJ
    have disjoint := List.pairwise_iff_getElem.mp apart i j (by simpa using inside i inI)
      (by simpa using inside j inJ) less
    simp only [List.getElem_map] at disjoint
    refine @disjoint slot ?_ ?_
    · simpa [Rows.row, inside i inI] using inI
    · simpa [Rows.row, inside j inJ] using inJ
  rcases Nat.lt_trichotomy bucket other with less | same | more
  · exact absurd there (never _ _ less here)
  · exact same
  · exact absurd here (never _ _ more there)

namespace Table

variable {table : Table} {memory : Memory K V} {rows : Rows (Placed K V)}

theorem buckets_of_lays (lays : table.Lays memory rows) : table.buckets = rows.length := by
  have := congrArg List.length lays.heads
  simpa [buckets] using this

theorem bucketFor_of_lays (lays : table.Lays memory rows) (hash : UInt64) :
    table.bucketFor hash = bucketOf rows.length hash := by
  unfold bucketFor mask
  rw [buckets_of_lays lays, bucketOf]

theorem head_of_lays (lays : table.Lays memory rows) {bucket : Nat}
    (inside : bucket < rows.length) : table.head bucket = .ok (chainHead (rows.row bucket)) := by
  have here : table.heads[bucket]? = some (chainHead (rows.row bucket)) := by
    rw [← Array.getElem?_toList, lays.heads, List.getElem?_map, Rows.getElem?_of_lt inside]
    rfl
  simp [head, here]

theorem lays_blank (memory : Memory K V) (buckets : Nat) :
    (blank buckets).Lays memory (List.replicate buckets []) := by
  refine ⟨by simp [blank, chainHead], fun bucket => ?_⟩
  have empty : Rows.row (List.replicate buckets ([] : List (Placed K V))) bucket = [] := by
    simp only [Rows.row, List.getElem?_replicate]
    split <;> rfl
  simp [empty, Holds, threaded]

theorem lays_frame {changed : Memory K V} (lays : table.Lays memory rows)
    (same : ∀ slot ∈ rows.slots, changed slot = memory slot) : table.Lays changed rows :=
  ⟨lays.heads, fun bucket => holds_frame (lays.held bucket) fun slot member =>
    same slot (Rows.mem_slots member)⟩

theorem lays_update (lays : table.Lays memory rows) {slot : Nat} (elsewhere : slot ∉ rows.slots)
    (entry : Option (Entry K V)) : table.Lays (Function.update memory slot entry) rows := by
  refine lays_frame lays fun other member => Function.update_of_ne ?_ _ _
  rintro rfl
  exact elsewhere member

theorem setHead_heads (lays : table.Lays memory rows) (bucket : Nat)
    (chain : List (Placed K V)) :
    (table.setHead bucket (chainHead chain)).heads.toList =
      (rows.set bucket chain).map chainHead := by
  simp [setHead, lays.heads]

/-- A table with one chain changed, in a memory that holds the new chain and is the same outside
the old one. -/
theorem lays_set {after : Table} {bucket : Nat} {changed : Memory K V}
    {chain : List (Placed K V)} (lays : table.Lays memory rows) (distinct : rows.slots.Nodup)
    (heads : after.heads.toList = (rows.set bucket chain).map chainHead)
    (holds : Holds changed chain none)
    (same : ∀ slot, slot ∉ slotsOf (rows.row bucket) → slot ∈ rows.slots →
      changed slot = memory slot) : after.Lays changed (rows.set bucket chain) := by
  refine ⟨heads, fun other => ?_⟩
  rw [Rows.row_set]
  split
  · exact holds
  · rename_i differ
    apply holds_frame (lays.held other)
    intro slot there
    refine same slot (fun here => ?_) (Rows.mem_slots there)
    have one := Rows.bucket_unique distinct here there
    subst one
    have beyond : rows.length ≤ bucket := by omega
    simp [Rows.row_of_length_le beyond, slotsOf] at here

theorem lays_rewrite [BEq K] (lays : table.Lays memory rows) (distinct : rows.slots.Nodup)
    {hash : UInt64} {key k : K} {slot : Nat} {old : V}
    (found : (rows.row (bucketOf rows.length hash)).find? (·.2.1 == key) = some (slot, k, old))
    (value : V) : ∃ link, memory slot = some ⟨k, old, link⟩ ∧
      table.Lays (Function.update memory slot (some ⟨k, value, link⟩))
        (rows.revise hash (·.2.1 == key) fun x => (x.1, x.2.1, value)) := by
  let bucket := bucketOf rows.length hash
  have holds := lays.held bucket
  have rowDistinct := Rows.nodup_row distinct bucket
  obtain ⟨before, after, row, matched, skipped, -⟩ := Rows.split_at_found found
  have changed : Rows.changeFirst (·.2.1 == key) (fun x => (x.1, x.2.1, value))
      (before ++ (slot, k, old) :: after) = before ++ (slot, k, value) :: after :=
    Rows.changeFirst_append (p := fun x : Placed K V => x.2.1 == key) matched skipped _
  rw [row] at holds rowDistinct
  obtain ⟨here, -⟩ := holds_cons.mp (holds_append.mp holds).2
  rw [Option.or_none] at here
  refine ⟨chainHead after, here, ?_⟩
  unfold Rows.revise
  rw [row, changed]
  refine lays_set lays distinct ?_ (holds_rewrite holds rowDistinct value) fun other missed _ => ?_
  · have unchanged : chainHead (before ++ (slot, k, value) :: after) =
        chainHead (rows.row bucket) := by
      rw [row]
      cases before <;> rfl
    rw [List.map_set, unchanged, ← List.map_set, Rows.set_row_self]
    exact lays.heads
  · rw [Function.update_of_ne]
    rintro rfl
    exact missed (by simp [row, slotsOf])

section Reading

variable {store : Store K V}

theorem chain_ok (lays : table.Lays store.get? rows) {bucket : Nat} (inside : bucket < rows.length)
    (short : (rows.row bucket).length ≤ store.slots.size) :
    table.chain store bucket = .ok (threaded (rows.row bucket) none) := by
  simp [chain, head_of_lays lays inside, linked, linkedFrom_ok (lays.held bucket) short]

theorem pairs_ok (lays : table.Lays store.get? rows) {bucket : Nat} (inside : bucket < rows.length)
    (short : (rows.row bucket).length ≤ store.slots.size) :
    table.pairs store bucket = .ok ((rows.row bucket).map (·.2)) := by
  simp only [pairs, chain_ok lays inside short, ok_bind, pure_eq_ok]
  conv => rhs; rw [← threaded_pairs (rows.row bucket) none]
  simp

variable [BEq K]

theorem find?_ok (lays : table.Lays store.get? rows) (positive : 0 < rows.length)
    (short : ∀ bucket, (rows.row bucket).length ≤ store.slots.size) (hash : UInt64) (key : K) :
    table.find? store hash key =
      .ok (((rows.row (bucketOf rows.length hash)).find? (·.2.1 == key)).map (·.1)) := by
  simp only [find?, bucketFor_of_lays lays, chain_ok lays (bucketOf_lt positive hash) (short _),
    ok_bind, pure_eq_ok]
  conv => rhs; rw [← threaded_pairs (rows.row (bucketOf rows.length hash)) none]
  simp [List.find?_map, Function.comp_def, Entry.pair]

end Reading

structure Attached (table : Table) (rows : Rows (Placed K V)) (store : Store K V) (hash : UInt64)
    (placed : Placed K V) (attached : Table) (next : Store K V) : Prop where
  sound : next.Sound
  len : next.len = store.len
  elsewhere : ∀ other, other ≠ placed.1 → next.get? other = store.get? other
  here : ∃ link, next.get? placed.1 = some ⟨placed.2.1, placed.2.2, link⟩
  occupied : ∀ other, next.get? other = none ↔ store.get? other = none
  lays : attached.Lays next.get? (rows.put hash placed)
  counted : attached.len = table.len + 1

theorem attach_ok {store : Store K V} (sound : store.Sound) (lays : table.Lays store.get? rows)
    (positive : 0 < rows.length) (distinct : rows.slots.Nodup) (hash : UInt64) {slot : Nat}
    {key : K} {value : V} {stop : Option Nat} (held : store.get? slot = some ⟨key, value, stop⟩)
    (fresh : slot ∉ rows.slots) :
    ∃ attached next, table.attach store hash slot = .ok (attached, next) ∧
      Attached table rows store hash (slot, key, value) attached next := by
  let bucket := bucketOf rows.length hash
  have inside : bucket < rows.length := bucketOf_lt positive hash
  let link := chainHead (rows.row bucket)
  obtain ⟨next, done, nextSound, view, len⟩ :=
    Arena.modify_ok sound held ({ · with next := link })
  have elsewhere : ∀ other, other ≠ slot → next.get? other = store.get? other := by
    intro other differ
    rw [view, Function.update_of_ne differ]
  have missed : slot ∉ slotsOf (rows.row bucket) := fun member => fresh (Rows.mem_slots member)
  refine ⟨{ table.setHead bucket (some slot) with len := table.len + 1 }, next, ?_, nextSound, len,
    elsewhere, ⟨link, by simp [view]⟩, fun other => ?_, ?_, rfl⟩
  · simp [attach, bucketFor_of_lays lays, head_of_lays lays inside, done, bucket, link]
  · by_cases same : other = slot
    · simp [view, same, held]
    · rw [elsewhere other same]
  · refine lays_set lays distinct (setHead_heads lays bucket ((slot, key, value) :: _)) ?_ ?_
    · refine holds_cons.mpr ⟨by simp [view, link, bucket], ?_⟩
      rw [view]
      exact holds_update (lays.held bucket) missed _
    · intro other _ member
      exact elsewhere other (by rintro rfl; exact fresh member)

end Table

end MemIndex.ChainMap
