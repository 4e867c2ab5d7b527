import MemIndex.Proofs.ChainMap.Keeping
import MemIndex.Proofs.ChainMap.Relocating

/- Resizing a map against resizing the plain map: the same events, and the same pairs in the same
   buckets. No step of it fails. -/
namespace MemIndex.ChainMap

variable {K V : Type} {map : ChainMap K V} {active target : Rows (Placed K V)}

theorem floats_of_laid {cursor : Nat} {table : Table} (laid : Laid map active target)
    (phase : map.phase = .resizing cursor table) :
    Floats ⟨map.active, table, map.store, 0⟩ [] active target := by
  have onTarget := laid.targetLays
  simp only [phase] at onTarget
  refine ⟨laid.owns, laid.activeLays, onTarget.1, fun x member => ?_, laid.activeLen, onTarget.2⟩
  cases member

theorem shifted_plainOf (cursor count : Nat) :
    (plainOf map active target).shifted cursor count (target.mapEach (·.2)) =
      (((List.range' cursor count).foldl (Rows.shift (hashPlaced map.hash))
          (active, target)).1.mapEach (·.2),
        ((List.range' cursor count).foldl (Rows.shift (hashPlaced map.hash))
          (active, target)).2.mapEach (·.2)) :=
  (Rows.mapEach_shifts (fun x : Placed K V => x.2) (fun pair => map.hash pair.1)
    (List.range' cursor count) (active, target)).symm

theorem transfer_ok {cursor stop : Nat} {table : Table} (laid : Laid map active target)
    (phase : map.phase = .resizing cursor table) (positive : 0 < target.length)
    (within : stop ≤ active.length) :
    ∃ done rest filled, (List.range' cursor (stop - cursor)).foldlM (Transfer.bucket map.hash)
        ⟨map.active, table, map.store, 0⟩ = .ok done ∧
      Floats done [] rest filled ∧
      (plainOf map active target).shifted cursor (stop - cursor) (target.mapEach (·.2)) =
        (rest.mapEach (·.2), filled.mapEach (·.2)) ∧
      subtract done.active.len done.moved = .ok rest.flatten.length ∧
      done.moved = active.flatten.length - rest.flatten.length := by
  have inside : ∀ bucket ∈ List.range' cursor (stop - cursor), bucket < active.length := by
    intro bucket member
    rw [List.mem_range'_1] at member
    omega
  obtain ⟨done, folded, sameLen, floats⟩ :=
    buckets_ok map.hash (floats_of_laid laid phase) positive inside
  have activeLen := floats.activeLen
  rw [List.length_nil, Nat.add_zero] at activeLen
  refine ⟨done, _, _, folded, floats, shifted_plainOf _ _, ?_, ?_⟩
  · rw [activeLen]
    exact subtract_add _ _
  · have before := laid.activeLen
    simp only at sameLen
    omega

theorem relocate_refines {p : Plain K V} (represents : Represents map p) (tidy : p.Tidy)
    (steps : Nat) : ∃ next, map.relocate steps = .ok (next, (p.relocate steps).2) ∧
      Represents next (p.relocate steps).1 := by
  obtain ⟨active, target, laid, rfl⟩ := represents
  cases phase : map.phase with
  | stable =>
    refine ⟨map, ?_, active, target, laid, ?_⟩
    · simp [relocate, Plain.relocate, plainOf, phase]
    · simp [Plain.relocate, plainOf, phase]
  | resizing cursor table =>
    have moving := @moving_plainOf _ _ map active target _ _ phase
    have midway := tidy.midway cursor _ moving
    have positive := target_positive tidy phase
    have size : map.active.buckets = active.length := Table.buckets_of_lays laid.activeLays
    let stop := min (cursor + steps) active.length
    obtain ⟨done, rest, filled, folded, floats, shifted, left, moved⟩ :=
      @transfer_ok _ _ _ _ _ cursor stop _ laid phase positive (Nat.min_le_right _ _)
    have plain : (plainOf map active target).relocate steps =
        if stop < active.length then
          ({ plainOf map active target with
              active := rest.mapEach (·.2), moving := some (stop, filled.mapEach (·.2)) },
            [.stepped cursor stop done.moved])
        else
          ({ plainOf map active target with active := filled.mapEach (·.2), moving := none },
            [.stepped cursor stop done.moved,
              .finished done.target.len active.length done.target.buckets]) := by
      simp only [Plain.relocate, moving, buckets_plainOf, pairs_plainOf]
      rw [shifted]
      simp only [Rows.flatten_mapEach, List.length_map, Rows.length_mapEach, moved,
        floats.targetLen, Table.buckets_of_lays floats.targetLays]
      rfl
    have run : map.relocate steps =
        if stop < active.length then
          .ok ({ map with
              store := done.store
              active := { done.active with len := rest.flatten.length }
              phase := .resizing stop done.target },
            [.stepped cursor stop done.moved])
        else if rest.flatten.length = 0 then
          .ok ({ map with store := done.store, active := done.target, phase := .stable },
            [.stepped cursor stop done.moved,
              .finished done.target.len active.length done.target.buckets])
        else .error (.leftBehind rest.flatten.length) := by
      simp only [relocate, phase, size]
      rw [folded, ok_bind, left, ok_bind]
      rfl
    by_cases more : stop < active.length
    · rw [if_pos more] at plain run
      rw [run, plain]
      exact ⟨_, rfl, rest, filled, ⟨floats.owns,
        ⟨floats.activeLays.heads, floats.activeLays.held⟩, rfl, floats.targetLays,
        floats.targetLen⟩, rfl⟩
    · have reach : (plainOf map active target).active.length ≤ cursor + (stop - cursor) := by
        rw [buckets_plainOf]
        omega
      have emptied := Plain.shifted_empty midway reach
      rw [shifted, Rows.flatten_mapEach, List.map_eq_nil_iff] at emptied
      have owns := floats.owns
      simp only [emptied, List.nil_append] at owns
      rw [if_neg more, emptied] at run
      rw [if_neg more] at plain
      rw [run, plain]
      refine ⟨_, rfl, filled, [], ⟨?_, floats.targetLays, floats.targetLen, rfl⟩, rfl⟩
      simpa using owns

section Starting

theorem startResize_refines {p : Plain K V} (represents : Represents map p)
    (tidy : p.Tidy) : ∃ next, map.startResize = .ok (next, p.startResize.2) ∧
      Represents next p.startResize.1 := by
  obtain ⟨active, target, laid, rfl⟩ := represents
  have size : map.active.buckets = active.length := Table.buckets_of_lays laid.activeLays
  have len := laid.activeLen
  have itsMoving : (plainOf map active target).moving.isSome = map.isResizing := by
    cases phase : map.phase <;> simp [plainOf, isResizing, target?, phase]
  have itsConfig : (plainOf map active target).config = map.config := rfl
  simp only [startResize, Plain.startResize, buckets_plainOf, pairs_plainOf, itsMoving, itsConfig,
    size, len]
  by_cases idle : (map.isResizing ||
      !map.config.resizeDue active.flatten.length active.length) = true
  · rw [if_pos idle, if_pos idle]
    exact ⟨map, rfl, active, target, laid, rfl⟩
  · rw [if_neg idle, if_neg idle]
    simp only [Bool.or_eq_true, Bool.not_eq_true', not_or, Bool.not_eq_false] at idle
    obtain ⟨notResizing, due⟩ := idle
    obtain ⟨given, valid, rounded⟩ := tidy.config
    rw [itsConfig] at rounded
    have positive : 0 < map.config.loadFactor.units := by
      rw [rounded]
      exact @Config.units_positive given valid
    have power : ∃ k, map.config.minBuckets = 2 ^ k := by
      rw [rounded]
      exact Config.rounded_minBuckets given
    have other := Config.fittingBuckets_ne positive due
    obtain ⟨k, fitting⟩ := Config.fittingBuckets_eq_pow power active.flatten.length
    have stable : map.phase = .stable := by
      cases phase : map.phase with
      | stable => rfl
      | resizing cursor table => simp [isResizing, target?, phase] at notResizing
    have nothing := laid.targetLays
    simp only [stable] at nothing
    rw [if_neg (Ne.symm other), fitting, Table.ofBuckets_pow, ok_bind]
    refine ⟨_, rfl, active, List.replicate (2 ^ k) [], ⟨?_, laid.activeLays, laid.activeLen,
      Table.lays_blank _ _, ?_⟩, ?_⟩
    · simpa [nothing] using laid.owns
    · simp [Table.blank]
    · simp [plainOf, Rows.mapEach]

theorem stride_refines {p : Plain K V} (represents : Represents map p) (tidy : p.Tidy) :
    map.stride = .ok p.stride := by
  obtain ⟨active, target, laid, rfl⟩ := represents
  have size : map.active.buckets = active.length := Table.buckets_of_lays laid.activeLays
  have positive := active_positive tidy
  have itsPace : (plainOf map active target).config.pace = map.config.pace := rfl
  simp only [stride, Plain.stride, itsPace, buckets_plainOf, size]
  cases map.config.pace with
  | fixed steps => rfl
  | full => rfl
  | auto =>
    have onTarget := laid.targetLays
    cases phase : map.phase with
    | stable =>
      have some : ¬ active.length = 0 := by omega
      simp [target?, phase, plainOf, some]
    | resizing cursor table =>
      simp only [phase] at onTarget
      have moving := @moving_plainOf _ _ map active target _ _ phase
      have targetPositive := target_positive tidy phase
      have itsTarget := Table.buckets_of_lays onTarget.1
      have some : ¬ min active.length target.length = 0 := by omega
      simp [target?, phase, moving, itsTarget, some]

theorem isResizing_refines {p : Plain K V} (represents : Represents map p) :
    map.isResizing = p.moving.isSome := by
  obtain ⟨active, target, laid, rfl⟩ := represents
  cases phase : map.phase <;> simp [plainOf, isResizing, target?, phase]

theorem upkeep_refines {p : Plain K V} (represents : Represents map p) (tidy : p.Tidy) :
    ∃ next, map.upkeep = .ok (next, p.upkeep.2) ∧ Represents next p.upkeep.1 := by
  obtain ⟨mid, started, between⟩ := startResize_refines represents tidy
  have midTidy := Plain.startResize_tidy tidy
  unfold upkeep
  rw [Plain.upkeep, started]
  simp only [ok_bind, isResizing_refines between]
  by_cases resizing : p.startResize.1.moving.isSome = true
  · obtain ⟨next, moved, after⟩ :=
      relocate_refines between midTidy p.startResize.1.stride
    rw [if_pos resizing, if_pos resizing, stride_refines between midTidy, ok_bind, moved]
    exact ⟨next, rfl, after⟩
  · rw [if_neg resizing, if_neg resizing]
    exact ⟨mid, rfl, between⟩

theorem rehash_refines {p : Plain K V} (represents : Represents map p) (tidy : p.Tidy)
    (buckets : Nat) : ∃ outcome, map.rehash buckets = .ok outcome ∧
      outcome.answer = (p.startResize.1.relocate buckets).1.moving.isSome ∧
      outcome.events = p.startResize.2 ++ (p.startResize.1.relocate buckets).2 ∧
      Represents outcome.state (p.startResize.1.relocate buckets).1 := by
  obtain ⟨mid, started, between⟩ := startResize_refines represents tidy
  obtain ⟨next, moved, after⟩ :=
    relocate_refines between (Plain.startResize_tidy tidy) buckets
  refine ⟨⟨next.isResizing, next, p.startResize.2 ++ (p.startResize.1.relocate buckets).2⟩, ?_,
    isResizing_refines after, rfl, after⟩
  simp only [rehash, started, ok_bind, moved]
  rfl

theorem settle_refines {p : Plain K V} (represents : Represents map p) (tidy : p.Tidy) :
    ∃ outcome, map.settle = .ok outcome ∧ outcome.events = p.settle.2 ∧
      Represents outcome.state p.settle.1 := by
  obtain ⟨size, -, -⟩ := sizes_of_represents represents
  obtain ⟨next, moved, after⟩ := relocate_refines represents tidy p.active.length
  refine ⟨⟨(), next, p.settle.2⟩, ?_, rfl, after⟩
  unfold settle
  rw [size, moved]
  rfl

end Starting

section Whole

theorem blank_represented (config : Config) (capacity : Nat) (hash : K → UInt64) :
    Represents (⟨.withCapacity capacity, .blank config.minBuckets, .stable, config, hash⟩ :
      ChainMap K V) (Plain.blank config hash) := by
  refine ⟨List.replicate config.minBuckets [], [], ⟨⟨Arena.withCapacity_sound capacity, ?_, ?_, ?_⟩,
    Table.lays_blank _ _, ?_, rfl⟩, ?_⟩
  · simp [slotsOf]
  · simp [slotsOf]
  · simp [Arena.withCapacity]
  · simp [Table.blank]
  · simp [plainOf, Plain.blank, Rows.mapEach]

theorem build_refines (config : Config) (hash : K → UInt64) :
    Represents (build config hash : ChainMap K V) (Plain.blank config.rounded hash) :=
  blank_represented _ _ _

theorem clear_refines {p : Plain K V} (represents : Represents map p) (tidy : p.Tidy) :
    ∃ next, map.clear = .ok next ∧ Represents next p.clear := by
  obtain ⟨given, valid, rounded⟩ := tidy.config
  obtain ⟨k, power⟩ := Config.rounded_minBuckets given
  obtain ⟨active, target, laid, rfl⟩ := represents
  have itsConfig : map.config = given.rounded := rounded
  have blank : Table.ofBuckets map.config.minBuckets = .ok (.blank map.config.minBuckets) := by
    rw [itsConfig, power, Table.ofBuckets_pow]
  exact ⟨_, by rw [clear, blank, ok_bind]; rfl,
    blank_represented map.config map.store.capacity map.hash⟩

theorem copy_refines {p : Plain K V} (represents : Represents map p) : Represents map.copy p := by
  obtain ⟨active, target, laid, rfl⟩ := represents
  refine ⟨active, target, ⟨?_, laid.activeLays, laid.activeLen, laid.targetLays⟩, rfl⟩
  exact owns_same laid.owns (Arena.copy_sound laid.owns.sound) rfl fun _ => Iff.rfl

end Whole

end MemIndex.ChainMap
