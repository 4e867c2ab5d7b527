import MemIndex.Proofs.ChainMap.Scanning
import MemIndex.Proofs.ChainMap.Simulation
import MemIndex.Text.Display

/- All that can be read off a map, orders included, is what its plain map says. The slots that the
   entries lie in play no part in it. -/
namespace MemIndex.ChainMap

variable {K V : Type}

def Rows.longest {α : Type} (rows : Rows α) : Nat := (rows.map List.length).foldl max 0

def Plain.stats (p : Plain K V) : Stats where
  len := p.entries.length
  buckets := p.active.length
  targetBuckets := p.moving.map (·.2.length)
  cursor := p.moving.map (·.1)
  longestChain := max p.active.longest p.target.longest

def Table.Shows (table : Table) (store : Store K V) (rows : Rows (K × V)) : Prop :=
  (List.range table.buckets).mapM (table.pairs store) = .ok rows

def Phase.Shows (phase : Phase) (store : Store K V) (moving : Option (Nat × Rows (K × V))) : Prop :=
  match phase with
  | .stable => moving = none
  | .resizing cursor table => ∃ rows, moving = some (cursor, rows) ∧ table.Shows store rows

structure Reads (map : ChainMap K V) (p : Plain K V) : Prop where
  active : map.active.Shows map.store p.active
  moving : map.phase.Shows map.store p.moving
  listed : map.listing = .ok (p.active.flatten ++ p.target.flatten)
  shown : ∀ [Text.Display K] [Text.Display V],
    Text.ofMap map = .ok (Text.ofPairs (p.active.flatten ++ p.target.flatten))
  /-- A walk brings a resize to its end, and may itself be left at any point. -/
  walked : ∃ outcome, map.walk = .ok outcome ∧ ∀ n, ∃ rest,
    outcome.answer.take n = .ok (p.settle.1.active.flatten.take n, rest)
  scanned : ∀ cursor, map.scan cursor = .ok (p.scan cursor)
  stats : map.stats = .ok p.stats

section Tables

variable {α : Type} {table : Table} {store : Store K V} {rows : Rows (Placed K V)}

theorem Rows.rows_in_order (rows : Rows α) : (List.range rows.length).map rows.row = rows := by
  apply List.ext_getElem
  · simp
  · intro bucket inside _
    have within : bucket < rows.length := by simpa using inside
    simp [Rows.row, within]

theorem threaded_length (chain : List (Placed K V)) (stop : Option Nat) :
    (threaded chain stop).length = chain.length := by
  simpa [slotsOf] using congrArg List.length (threaded_slots chain stop)

variable (lays : table.Lays store.get? rows)
  (short : ∀ bucket, (rows.row bucket).length ≤ store.slots.size)

include lays short

theorem shows_of_lays : table.Shows store (rows.mapEach (·.2)) := by
  have each : ∀ bucket ∈ List.range table.buckets, table.pairs store bucket =
      .ok ((rows.mapEach (·.2)).row bucket) := by
    intro bucket inside
    rw [List.mem_range, Table.buckets_of_lays lays] at inside
    rw [Table.pairs_ok lays inside (short bucket), Rows.row_mapEach]
  have whole := Rows.rows_in_order (rows.mapEach (·.2))
  rw [Rows.length_mapEach] at whole
  rw [Table.Shows, mapM_ok each, Table.buckets_of_lays lays, whole]

theorem longest_ok : table.longest store = .ok (rows.mapEach (·.2)).longest := by
  have each : ∀ bucket ∈ List.range table.buckets, table.chain store bucket =
      .ok (threaded (rows.row bucket) none) := by
    intro bucket inside
    rw [List.mem_range, Table.buckets_of_lays lays] at inside
    exact Table.chain_ok lays inside (short bucket)
  have lengths : (List.range rows.length).map (fun bucket => (rows.row bucket).length) =
      rows.map List.length := by
    conv => rhs; rw [← Rows.rows_in_order rows, List.map_map]
    rfl
  rw [Table.longest, mapM_ok each, Table.buckets_of_lays lays, ok_bind, List.map_map]
  simp [Rows.longest, Rows.mapEach, Function.comp_def, threaded_length, lengths]

end Tables

section Whole

variable {map : ChainMap K V} {p : Plain K V}

theorem listing_refines (represents : Represents map p) :
    map.listing = .ok (p.active.flatten ++ p.target.flatten) := by
  obtain ⟨active, target, laid, rfl⟩ := represents
  have inActive := Walk.toList_ok laid.activeLays laid.activeLen
  have itsActive : (plainOf map active target).active = active.mapEach (·.2) := rfl
  have onTarget := laid.targetLays
  rw [target_plainOf laid, itsActive, Rows.flatten_mapEach, Rows.flatten_mapEach]
  cases phase : map.phase with
  | stable =>
    simp only [phase] at onTarget
    simp [listing, target?, phase, inActive, onTarget]
  | resizing cursor table =>
    simp only [phase] at onTarget
    have inTarget := Walk.toList_ok onTarget.1 onTarget.2
    simp [listing, target?, phase, inActive, inTarget]

theorem walk_refines (represents : Represents map p) (tidy : p.Tidy) :
    ∃ outcome, map.walk = .ok outcome ∧ ∀ n, ∃ rest,
      outcome.answer.take n = .ok (p.settle.1.active.flatten.take n, rest) := by
  obtain ⟨walked, active, done, -, stands, rows, -⟩ := walk_stands represents tidy
  refine ⟨walked, done, fun n => ?_⟩
  obtain ⟨rest, taken, -⟩ := Walk.take_ok stands n
  refine ⟨rest, ?_⟩
  rw [taken, ← rows, Rows.flatten_mapEach, List.map_take]

theorem stats_refines (represents : Represents map p) : map.stats = .ok p.stats := by
  have counted := len_of_represents represents
  obtain ⟨active, target, laid, rfl⟩ := represents
  have inActive := longest_ok laid.activeLays (active_short laid)
  have size := Table.buckets_of_lays laid.activeLays
  have onTarget := laid.targetLays
  rw [Plain.stats, target_plainOf laid, ← counted]
  cases phase : map.phase with
  | stable =>
    simp only [phase] at onTarget
    simp [stats, phase, inActive, plainOf, size, onTarget, Rows.mapEach, Rows.longest]
  | resizing cursor table =>
    simp only [phase] at onTarget
    have inTarget := longest_ok onTarget.1 (target_short laid)
    have targetSize := Table.buckets_of_lays onTarget.1
    simp [stats, phase, inActive, inTarget, plainOf, size, targetSize]

theorem reads_of_depicts (depicts : Depicts map p) : Reads map p := by
  have listed := listing_refines depicts.represents
  have walked := walk_refines depicts.represents depicts.tidy
  have scanned := scan_refines depicts.represents depicts.tidy
  have stats := stats_refines depicts.represents
  obtain ⟨⟨active, target, laid, rfl⟩, -⟩ := depicts
  refine ⟨shows_of_lays laid.activeLays (active_short laid), ?_, listed, ?_, walked, scanned,
    stats⟩
  · have onTarget := laid.targetLays
    cases phase : map.phase with
    | stable => simp [Phase.Shows, plainOf, phase]
    | resizing cursor table =>
      simp only [phase] at onTarget
      exact ⟨_, moving_plainOf phase, shows_of_lays onTarget.1 (target_short laid)⟩
  · intro _ _
    rw [Text.ofMap, listed]
    rfl

/-- From an empty map with any accepted settings and any hash function, all operations answer as
those of plain lists do, and the map then reads as the lists: a new pair is put in front of its
list, in the target while a resize is running, a removed one leaves the others in order, and a
bucket is relocated pair by pair, first to last. -/
theorem operations_follow_lists [BEq K] {config : Config} (valid : config.Valid)
    (hash : K → UInt64) (ops : List (Op K V)) :
    ∃ map : ChainMap K V, ofConfig config hash = .ok map ∧
      Matching (fun expected actual => expected.1 = actual.1 ∧ Reads actual.2 expected.2)
        (runAll Op.plainly ops (Plain.blank config.rounded hash)) (runAll Op.run ops map) := by
  refine ⟨build config hash, ofConfig_valid valid hash, ?_⟩
  apply matching_imp (ops_alike (build_depicts valid hash) ops)
  rintro expected actual ⟨answers, depicts⟩
  exact ⟨answers, reads_of_depicts depicts⟩

theorem operations_follow_lists_words :
    ∃ map : ChainMap UInt64 Nat, ofConfig { pace := .fixed 1 } id = .ok map ∧
      (runAll Op.run crossing map).map (·.2.cursor?) = .ok (some 3) ∧
      Matching (fun expected actual => expected.1 = actual.1 ∧ Reads actual.2 expected.2)
        (runAll Op.plainly crossing
          (Plain.blank ({ pace := .fixed 1 } : Config).rounded id))
        (runAll Op.run crossing map) := by
  obtain ⟨map, made, follows⟩ := operations_follow_lists Config.single_valid id crossing
  obtain ⟨-, rfl⟩ := made_of_ofConfig made
  exact ⟨_, made, by decide +kernel, follows⟩

end Whole

end MemIndex.ChainMap
