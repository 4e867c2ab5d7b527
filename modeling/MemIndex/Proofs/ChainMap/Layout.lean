import MemIndex.ChainMap.Access
import MemIndex.Proofs.ChainMap.Plain
import MemIndex.Proofs.ChainMap.Unlinking

/- How a chained map lies in its store, and the plain map it stands for. Every occupied slot is on
   one chain of one table, and the counters count the chains. -/
namespace MemIndex.ChainMap

variable {K V : Type}

/-- The store holds something in the slots of these pairs, once each, and nowhere else. -/
structure Owns (store : Store K V) (placed : List (Placed K V)) : Prop where
  sound : store.Sound
  distinct : (slotsOf placed).Nodup
  occupied : ∀ slot, store.get? slot = none ↔ slot ∉ slotsOf placed
  len : store.len = placed.length

theorem owns_slots {store : Store K V} {placed others : List (Placed K V)}
    (owns : Owns store placed) (slots : (slotsOf placed).Perm (slotsOf others)) :
    Owns store others := by
  refine ⟨owns.sound, slots.nodup_iff.mp owns.distinct, fun slot => ?_, owns.len.trans ?_⟩
  · rw [owns.occupied slot, slots.mem_iff]
  · simpa [slotsOf] using slots.length_eq

theorem owns_perm {store : Store K V} {placed others : List (Placed K V)}
    (owns : Owns store placed) (perm : placed.Perm others) : Owns store others :=
  owns_slots owns (perm.map _)

theorem owns_same {store next : Store K V} {placed : List (Placed K V)}
    (owns : Owns store placed) (sound : next.Sound) (len : next.len = store.len)
    (occupied : ∀ slot, next.get? slot = none ↔ store.get? slot = none) : Owns next placed :=
  ⟨sound, owns.distinct, fun slot => (occupied slot).trans (owns.occupied slot),
    len.trans owns.len⟩

theorem Rows.length_row_le {α : Type} (rows : Rows α) (bucket : Nat) :
    (rows.row bucket).length ≤ rows.flatten.length := by
  by_cases inside : bucket < rows.length
  · exact (List.sublist_flatten_of_mem
      (List.mem_of_getElem? (Rows.getElem?_of_lt inside))).length_le
  · simp [Rows.row_of_length_le (Nat.le_of_not_lt inside)]

theorem short_of_owns {store : Store K V} {placed : List (Placed K V)} {rows : Rows (Placed K V)}
    (owns : Owns store placed) (part : rows.flatten.length ≤ placed.length) (bucket : Nat) :
    (rows.row bucket).length ≤ store.slots.size := by
  have := Rows.length_row_le rows bucket
  have := Arena.len_le_size owns.sound
  have := owns.len
  omega

structure Laid (map : ChainMap K V) (active target : Rows (Placed K V)) : Prop where
  owns : Owns map.store (active.flatten ++ target.flatten)
  activeLays : map.active.Lays map.store.get? active
  activeLen : map.active.len = active.flatten.length
  targetLays : match map.phase with
    | .stable => target = []
    | .resizing _ table =>
      table.Lays map.store.get? target ∧ table.len = target.flatten.length

/-- The map that is left when the slots are forgotten. -/
def plainOf (map : ChainMap K V) (active target : Rows (Placed K V)) : Plain K V where
  active := active.mapEach (·.2)
  moving := match map.phase with
    | .stable => none
    | .resizing cursor _ => some (cursor, target.mapEach (·.2))
  config := map.config
  hash := map.hash

def Represents (map : ChainMap K V) (p : Plain K V) : Prop :=
  ∃ active target, Laid map active target ∧ plainOf map active target = p

section Laid

variable {map : ChainMap K V} {active target : Rows (Placed K V)}

theorem moving_plainOf {cursor : Nat} {table : Table}
    (phase : map.phase = .resizing cursor table) :
    (plainOf map active target).moving = some (cursor, target.mapEach (·.2)) := by
  simp [plainOf, phase]

theorem buckets_plainOf : (plainOf map active target).active.length = active.length :=
  Rows.length_mapEach _

theorem pairs_plainOf :
    (plainOf map active target).active.flatten.length = active.flatten.length := by
  unfold plainOf
  rw [Rows.flatten_mapEach, List.length_map]

theorem target_plainOf (laid : Laid map active target) :
    (plainOf map active target).target = target.mapEach (·.2) := by
  have onTarget := laid.targetLays
  cases phase : map.phase with
  | stable =>
    simp only [phase] at onTarget
    simp [Plain.target, plainOf, phase, onTarget, Rows.mapEach]
  | resizing cursor table => simp [Plain.target, plainOf, phase]

theorem active_positive (tidy : (plainOf map active target).Tidy) : 0 < active.length := by
  simpa [plainOf] using Plain.active_positive tidy

theorem target_positive (tidy : (plainOf map active target).Tidy) {cursor : Nat} {table : Table}
    (phase : map.phase = .resizing cursor table) : 0 < target.length := by
  simpa using Plain.target_positive tidy (moving_plainOf phase)

theorem slots_distinct (laid : Laid map active target) :
    (active.slots ++ target.slots).Nodup := by
  have distinct := laid.owns.distinct
  unfold slotsOf at distinct
  rw [List.map_append] at distinct
  exact distinct

theorem active_distinct (laid : Laid map active target) : active.slots.Nodup :=
  (List.nodup_append.mp (slots_distinct laid)).1

theorem target_distinct (laid : Laid map active target) : target.slots.Nodup :=
  (List.nodup_append.mp (slots_distinct laid)).2.1

theorem tables_disjoint (laid : Laid map active target) {slot : Nat} (here : slot ∈ active.slots) :
    slot ∉ target.slots := by
  intro there
  exact (List.nodup_append.mp (slots_distinct laid)).2.2 slot here slot there rfl

theorem active_short (laid : Laid map active target) (bucket : Nat) :
    (active.row bucket).length ≤ map.store.slots.size :=
  short_of_owns laid.owns (by simp) bucket

theorem target_short (laid : Laid map active target) (bucket : Nat) :
    (target.row bucket).length ≤ map.store.slots.size :=
  short_of_owns laid.owns (by simp) bucket

theorem entries_plainOf (laid : Laid map active target) :
    (plainOf map active target).entries = (active.flatten ++ target.flatten).map (·.2) := by
  rw [Plain.entries, target_plainOf laid]
  simp [plainOf, Rows.flatten_mapEach]

theorem stored_of_laid (laid : Laid map active target) {slot : Nat} {pair : K × V}
    (member : (slot, pair) ∈ active.flatten ++ target.flatten) :
    ∃ next, map.store.get? slot = some ⟨pair.1, pair.2, next⟩ := by
  rcases List.mem_append.mp member with here | there
  · obtain ⟨bucket, inRow⟩ := Rows.mem_flatten_iff.mp here
    exact memory_of_holds (laid.activeLays.held bucket) inRow
  · have onTarget := laid.targetLays
    cases phase : map.phase with
    | stable =>
      simp only [phase] at onTarget
      simp [onTarget] at there
    | resizing cursor table =>
      simp only [phase] at onTarget
      obtain ⟨bucket, inRow⟩ := Rows.mem_flatten_iff.mp there
      exact memory_of_holds (onTarget.1.held bucket) inRow

end Laid

theorem len_of_represents {map : ChainMap K V} {p : Plain K V} (represents : Represents map p) :
    map.len = p.entries.length := by
  obtain ⟨active, target, laid, rfl⟩ := represents
  rw [entries_plainOf laid, List.length_map, len, laid.owns.len]

theorem sizes_of_represents {map : ChainMap K V} {p : Plain K V} (represents : Represents map p) :
    map.active.buckets = p.active.length ∧ map.active.len = p.active.flatten.length ∧
      map.config = p.config := by
  obtain ⟨active, target, laid, rfl⟩ := represents
  rw [buckets_plainOf, pairs_plainOf]
  exact ⟨Table.buckets_of_lays laid.activeLays, laid.activeLen, rfl⟩

end MemIndex.ChainMap
