import Mathlib.Data.List.Forall2
import MemIndex.Proofs.ChainMap.Dictionaries

/- What holds of every map that operations lead to, said of its slots, links and counters alone:
   the chains come to an end, they part the store among them, and the tables are in order. -/
namespace MemIndex.ChainMap

variable {K V : Type}

inductive Trail (store : Store K V) : Option Nat → List (Placed K V) → Prop where
  | done : Trail store none []
  | link {slot : Nat} {entry : Entry K V} {rest : List (Placed K V)}
    (held : store.get? slot = some entry) (more : Trail store entry.next rest) :
    Trail store (some slot) ((slot, entry.pair) :: rest)

structure Table.Chained (table : Table) (store : Store K V) (hash : K → UInt64)
    (chains : Rows (Placed K V)) : Prop where
  trails : List.Forall₂ (Trail store) table.heads.toList chains
  filed : ∀ bucket, ∀ placed ∈ chains.row bucket, table.bucketFor (hash placed.2.1) = bucket
  counted : table.len = (chains.map List.length).sum

structure Table.Sized (table : Table) (config : Config) : Prop where
  power : ∃ k, table.buckets = 2 ^ k
  least : config.minBuckets ≤ table.buckets

structure Consistent (hash : K → UInt64) (map : ChainMap K V) (active target : Rows (Placed K V)) :
    Prop where
  hashed : map.hash = hash
  activeChained : map.active.Chained map.store hash active
  targetChained : match map.phase with
    | .stable => target = []
    | .resizing _ table => table.Chained map.store hash target
  once : (slotsOf (active.flatten ++ target.flatten)).Nodup
  everywhere : ∀ slot, slot ∈ slotsOf (active.flatten ++ target.flatten) ↔
    (map.store.get? slot).isSome
  counted : map.active.len + (map.target?.map Table.len).getD 0 = map.store.len
  rounded : ∃ given : Config, given.Valid ∧ map.config = given.rounded
  activeSized : map.active.Sized map.config
  targetSized : ∀ table, map.target? = some table → table.Sized map.config
  midway : ∀ cursor table, map.phase = .resizing cursor table →
    table.buckets ≠ map.active.buckets ∧ cursor < map.active.buckets ∧
      ∀ bucket, bucket < cursor → map.active.heads[bucket]? = some none

section Chains

variable {store : Store K V}

theorem trail_of_holds {chain : List (Placed K V)} (holds : Holds store.get? chain none) :
    Trail store (chainHead chain) chain := by
  induction chain with
  | nil => exact Trail.done
  | cons x rest ih =>
    obtain ⟨slot, key, value⟩ := x
    obtain ⟨here, tail⟩ := holds_cons.mp holds
    rw [Option.or_none] at here
    exact Trail.link here (ih tail)

theorem trails_of_lays {table : Table} {rows : Rows (Placed K V)}
    (lays : table.Lays store.get? rows) :
    List.Forall₂ (Trail store) table.heads.toList rows := by
  rw [lays.heads, List.forall₂_map_left_iff, List.forall₂_same]
  intro chain member
  obtain ⟨bucket, here⟩ := List.mem_iff_getElem?.mp member
  have holds := lays.held bucket
  rw [Rows.row_of_getElem? here] at holds
  exact trail_of_holds holds

theorem chained_of_lays {table : Table} {rows : Rows (Placed K V)} {hash : K → UInt64}
    (lays : table.Lays store.get? rows) (counted : table.len = rows.flatten.length)
    (filed : Rows.Filed (fun pair : K × V => hash pair.1) (rows.mapEach (·.2))) :
    table.Chained store hash rows := by
  refine ⟨trails_of_lays lays, fun bucket placed member => ?_, ?_⟩
  · have inRow : placed.2 ∈ (rows.mapEach (·.2)).row bucket := by
      rw [Rows.row_mapEach]
      exact List.mem_map_of_mem member
    have place := filed bucket placed.2 inRow
    rwa [Rows.length_mapEach, ← Table.bucketFor_of_lays lays] at place
  · rw [counted, List.length_flatten]

theorem sized_of_lays {table : Table} {rows : Rows (Placed K V)} {config : Config}
    (lays : table.Lays store.get? rows) (power : ∃ k, (rows.mapEach (·.2)).length = 2 ^ k)
    (least : config.minBuckets ≤ (rows.mapEach (·.2)).length) : table.Sized config := by
  rw [Rows.length_mapEach, ← Table.buckets_of_lays lays] at power least
  exact ⟨power, least⟩

section Back

variable {table : Table} {hash : K → UInt64} {chains : Rows (Placed K V)}

theorem holds_of_trail {start : Option Nat} {chain : List (Placed K V)}
    (trail : Trail store start chain) : start = chainHead chain ∧ Holds store.get? chain none := by
  induction trail with
  | done => exact ⟨rfl, holds_nil⟩
  | link held more ih =>
    obtain ⟨head, rest⟩ := ih
    refine ⟨rfl, holds_cons.mpr ⟨?_, rest⟩⟩
    rw [held, Option.or_none, ← head]

theorem lays_of_chained (chained : table.Chained store hash chains) :
    table.Lays store.get? chains := by
  constructor
  · rw [← List.forall₂_eq_eq_eq, List.forall₂_map_right_iff]
    exact chained.trails.imp fun _ _ trail => (holds_of_trail trail).1
  · intro bucket
    by_cases inside : bucket < chains.length
    · have trail := chained.trails.get (chained.trails.length_eq ▸ inside) inside
      rw [Rows.row_of_getElem? (List.getElem?_eq_getElem inside)]
      exact (holds_of_trail trail).2
    · rw [Rows.row_of_length_le (Nat.le_of_not_lt inside)]
      exact holds_nil

theorem len_of_chained (chained : table.Chained store hash chains) :
    table.len = chains.flatten.length := by
  rw [chained.counted, List.length_flatten]

theorem filed_of_chained (chained : table.Chained store hash chains) :
    Rows.Filed (fun pair : K × V => hash pair.1) (chains.mapEach (·.2)) := by
  intro bucket pair member
  rw [Rows.row_mapEach] at member
  obtain ⟨placed, inRow, rfl⟩ := List.mem_map.mp member
  rw [Rows.length_mapEach, ← Table.bucketFor_of_lays (lays_of_chained chained)]
  exact chained.filed bucket placed inRow

end Back

end Chains

variable {map : ChainMap K V} {active target : Rows (Placed K V)}

theorem target_of_laid (laid : Laid map active target) (tidy : (plainOf map active target).Tidy)
    {cursor : Nat} {table : Table} (phase : map.phase = .resizing cursor table) :
    table.Chained map.store map.hash target ∧ table.len = target.flatten.length ∧
      table.Sized map.config ∧ table.buckets ≠ map.active.buckets ∧ cursor < map.active.buckets ∧
      ∀ bucket, bucket < cursor → map.active.heads[bucket]? = some none := by
  have onTarget := laid.targetLays
  simp only [phase] at onTarget
  have size := Table.buckets_of_lays laid.activeLays
  have targetSize := Table.buckets_of_lays onTarget.1
  have filed := tidy.targetFiled
  rw [target_plainOf laid] at filed
  have midway := tidy.midway cursor _ (moving_plainOf phase)
  have itsActive : (plainOf map active target).active = active.mapEach (·.2) := rfl
  have inside : cursor < active.length := by simpa [itsActive] using midway.inside
  refine ⟨chained_of_lays onTarget.1 onTarget.2 filed, onTarget.2,
    sized_of_lays onTarget.1 midway.size midway.least, ?_, ?_, ?_⟩
  · rw [targetSize, size]
    simpa [itsActive] using midway.other
  · rw [size]
    exact inside
  · intro bucket before
    have empty : active.row bucket = [] := by simpa [itsActive] using midway.done bucket before
    have within : bucket < active.length := by omega
    rw [← Array.getElem?_toList, laid.activeLays.heads, List.getElem?_map,
      Rows.getElem?_of_lt within, empty]
    rfl

theorem consistent_of_laid (laid : Laid map active target)
    (tidy : (plainOf map active target).Tidy) : Consistent map.hash map active target := by
  have onTarget := laid.targetLays
  constructor
  · rfl
  · exact chained_of_lays laid.activeLays laid.activeLen tidy.filed
  · cases phase : map.phase with
    | stable => simpa only [phase] using onTarget
    | resizing cursor table => exact (target_of_laid laid tidy phase).1
  · exact laid.owns.distinct
  · intro slot
    rw [Option.isSome_iff_ne_none, ne_eq, laid.owns.occupied, not_not]
  · rw [laid.owns.len, laid.activeLen, List.length_append]
    cases phase : map.phase with
    | stable =>
      simp only [phase] at onTarget
      simp [target?, phase, onTarget]
    | resizing cursor table => simp [target?, phase, (target_of_laid laid tidy phase).2.1]
  · exact tidy.config
  · exact sized_of_lays laid.activeLays tidy.size tidy.least
  · intro table resizing
    cases phase : map.phase with
    | stable => simp [target?, phase] at resizing
    | resizing cursor other =>
      simp only [target?, phase, Option.some.injEq] at resizing
      subst resizing
      exact (target_of_laid laid tidy phase).2.2.1
  · intro cursor table phase
    exact (target_of_laid laid tidy phase).2.2.2

theorem laid_of_consistent {hash : K → UInt64} (consistent : Consistent hash map active target)
    (sound : map.store.Sound) : Laid map active target := by
  have onTarget := consistent.targetChained
  have counted := consistent.counted
  have activeLen := len_of_chained consistent.activeChained
  refine ⟨⟨sound, consistent.once, fun slot => ?_, ?_⟩, lays_of_chained consistent.activeChained,
    activeLen, ?_⟩
  · rw [consistent.everywhere, Option.not_isSome_iff_eq_none]
  · cases phase : map.phase with
    | stable =>
      simp only [phase] at onTarget
      simpa [target?, phase, onTarget, activeLen] using counted.symm
    | resizing cursor table =>
      simp only [phase] at onTarget
      simpa [target?, phase, len_of_chained onTarget, activeLen] using counted.symm
  · cases phase : map.phase with
    | stable => simpa only [phase] using onTarget
    | resizing cursor table =>
      simp only [phase] at onTarget
      exact ⟨lays_of_chained onTarget, len_of_chained onTarget⟩

theorem midway_of_consistent {hash : K → UInt64} (consistent : Consistent hash map active target)
    (laid : Laid map active target) {cursor : Nat} {table : Table}
    (phase : map.phase = .resizing cursor table) :
    (plainOf map active target).Midway cursor (target.mapEach (·.2)) := by
  have onTarget := laid.targetLays
  simp only [phase] at onTarget
  have size := Table.buckets_of_lays laid.activeLays
  have targetSize := Table.buckets_of_lays onTarget.1
  have sized := consistent.targetSized table (by simp [target?, phase])
  obtain ⟨other, inside, done⟩ := consistent.midway cursor table phase
  rw [size] at inside
  refine ⟨?_, ?_, ?_, by rwa [buckets_plainOf], fun bucket before => ?_⟩
  · rw [Rows.length_mapEach, ← targetSize]
    exact sized.power
  · rw [Rows.length_mapEach, ← targetSize]
    exact sized.least
  · rw [Rows.length_mapEach, buckets_plainOf, ← targetSize, ← size]
    exact other
  · have empty := done bucket before
    rw [← Array.getElem?_toList, laid.activeLays.heads, List.getElem?_map,
      Rows.getElem?_of_lt (Nat.lt_trans before inside)] at empty
    have none : active.row bucket = [] := by simpa [chainHead] using empty
    simp [plainOf, none]

theorem depicts_of_consistent {hash : K → UInt64} (consistent : Consistent hash map active target)
    (sound : map.store.Sound) : Depicts map (plainOf map active target) := by
  have laid := laid_of_consistent consistent sound
  have onTarget := consistent.targetChained
  have size := Table.buckets_of_lays laid.activeLays
  obtain rfl := consistent.hashed
  refine ⟨⟨active, target, laid, rfl⟩, consistent.rounded, ?_, ?_,
    filed_of_chained consistent.activeChained, ?_, fun cursor rows moving => ?_⟩
  · rw [buckets_plainOf, ← size]
    exact consistent.activeSized.power
  · rw [buckets_plainOf, ← size]
    exact consistent.activeSized.least
  · rw [target_plainOf laid]
    cases phase : map.phase with
    | stable =>
      simp only [phase] at onTarget
      rw [onTarget]
      exact Rows.filed_empty _ 0
    | resizing cursor table =>
      simp only [phase] at onTarget
      exact filed_of_chained onTarget
  · cases phase : map.phase with
    | stable => simp [plainOf, phase] at moving
    | resizing cursor table =>
      rw [moving_plainOf phase] at moving
      cases moving
      exact midway_of_consistent consistent laid phase

/-- In every map that operations lead to, the chains of the tables end, part the occupied slots
among them, and keep to their buckets. No two keys are equal when the hash function does not tell
equal keys apart. -/
theorem reachable_consistent [BEq K] {hash : K → UInt64} (reachable : Reachable hash map) :
    ∃ active target, Consistent hash map active target ∧
      (EquivBEq K → Respects hash → (active.flatten ++ target.flatten).Pairwise
        fun x y => (x.2.1 == y.2.1) = false) := by
  by_cases lawful : EquivBEq K ∧ Respects hash
  · obtain ⟨_, respects⟩ := lawful
    obtain ⟨dict, p, depicts, carries⟩ := reachable_mirrors respects reachable
    obtain ⟨⟨active, target, laid, same⟩, tidy⟩ := depicts
    subst same
    have distinct := carries.sound.distinct
    rw [entries_plainOf laid] at distinct
    have itsHash : map.hash = hash := carries.hash
    rw [← itsHash]
    exact ⟨active, target, consistent_of_laid laid tidy, fun _ _ => List.pairwise_map.mp distinct⟩
  · obtain ⟨p, ⟨⟨active, target, laid, same⟩, tidy⟩, itsHash⟩ := reachable_depicts reachable
    subst same
    have itsHash : map.hash = hash := itsHash
    rw [← itsHash]
    refine ⟨active, target, consistent_of_laid laid tidy, fun equiv respects => ?_⟩
    rw [itsHash] at respects
    exact absurd ⟨equiv, respects⟩ lawful

theorem reachable_consistent_words :
    ∃ map : ChainMap UInt64 Nat,
      Op.run (.extend [(1, 10), (2, 20), (3, 30), (4, 40), (5, 50), (6, 60)]) (build {} id) =
          .ok (.done, map) ∧
        map.isResizing = true ∧ ∃ active target, Consistent id map active target ∧
          (EquivBEq UInt64 → Respects (id : UInt64 → UInt64) →
            (active.flatten ++ target.flatten).Pairwise fun x y => (x.2.1 == y.2.1) = false) := by
  have start : Reachable id (build {} id : ChainMap UInt64 Nat) :=
    build_reachable Config.default_valid id
  have grown : ∃ map : ChainMap UInt64 Nat,
      Op.run (.extend [(1, 10), (2, 20), (3, 30), (4, 40), (5, 50), (6, 60)]) (build {} id) =
        .ok (.done, map) ∧ map.isResizing = true := ⟨_, rfl, rfl⟩
  obtain ⟨map, ran, resizing⟩ := grown
  exact ⟨map, ran, resizing, reachable_consistent (start.step ran)⟩

end MemIndex.ChainMap
