import MemIndex.Proofs.ChainMap.Layout

/- Looking a key up in a map finds what the plain map has for it, with its slot. -/
namespace MemIndex.ChainMap

variable {K V : Type} [BEq K] {map : ChainMap K V} {active target : Rows (Placed K V)}

def hitPlaced (hash : K → UInt64) (rows : Rows (Placed K V)) (key : K) : Option (Placed K V) :=
  (rows.row (bucketOf rows.length (hash key))).find? (·.2.1 == key)

def findPlaced (map : ChainMap K V) (active target : Rows (Placed K V)) (key : K) :
    Option (Placed K V) :=
  (hitPlaced map.hash target key).or (hitPlaced map.hash active key)

theorem hit_mapEach (p : Plain K V) (rows : Rows (Placed K V)) (key : K) :
    p.hit (rows.mapEach (·.2)) key = (hitPlaced p.hash rows key).map (·.2) := by
  unfold Plain.hit hitPlaced
  rw [Rows.length_mapEach, Rows.row_mapEach, List.find?_map]
  rfl

theorem hitPlaced_mem {hash : K → UInt64} {rows : Rows (Placed K V)} {key : K}
    {placed : Placed K V} (found : hitPlaced hash rows key = some placed) :
    placed ∈ rows.flatten :=
  Rows.mem_flatten_iff.mpr ⟨_, List.mem_of_find?_eq_some found⟩

theorem find?_plainOf (laid : Laid map active target) (key : K) :
    (plainOf map active target).find? key = (findPlaced map active target key).map (·.2) := by
  have onTarget := hit_mapEach (plainOf map active target) target key
  have onActive := hit_mapEach (plainOf map active target) active key
  rw [Plain.find?, target_plainOf laid, findPlaced, Option.map_or]
  exact congrArg₂ Option.or onTarget onActive

theorem whereFound_target (laid : Laid map active target) {key : K} {placed : Placed K V}
    (found : hitPlaced map.hash target key = some placed)
    (change : Rows (K × V) → Rows (K × V)) :
    (plainOf map active target).whereFound key change =
      { plainOf map active target with
        moving := (plainOf map active target).moving.map fun (cursor, target) =>
          (cursor, change target) } := by
  have hit := hit_mapEach (plainOf map active target) target key
  have same : (plainOf map active target).hash = map.hash := rfl
  rw [same, found, Option.map_some] at hit
  rw [Plain.whereFound, target_plainOf laid, hit]

theorem whereFound_active (laid : Laid map active target) {key : K}
    (missing : hitPlaced map.hash target key = none) (change : Rows (K × V) → Rows (K × V)) :
    (plainOf map active target).whereFound key change =
      { plainOf map active target with active := change (active.mapEach (·.2)) } := by
  have hit := hit_mapEach (plainOf map active target) target key
  have same : (plainOf map active target).hash = map.hash := rfl
  rw [same, missing, Option.map_none] at hit
  rw [Plain.whereFound, target_plainOf laid, hit]
  rfl

theorem findPlaced_mem {key : K} {placed : Placed K V}
    (found : findPlaced map active target key = some placed) :
    placed ∈ active.flatten ++ target.flatten := by
  rcases Option.or_eq_some_iff.mp found with there | ⟨-, here⟩
  · exact List.mem_append_right _ (hitPlaced_mem there)
  · exact List.mem_append_left _ (hitPlaced_mem here)

theorem slotOf?_ok (laid : Laid map active target) (tidy : (plainOf map active target).Tidy)
    (key : K) : map.slotOf? key = .ok ((findPlaced map active target key).map (·.1)) := by
  have positive := active_positive tidy
  have inActive := Table.find?_ok laid.activeLays positive (active_short laid) (map.hash key) key
  have onTarget := laid.targetLays
  cases phase : map.phase with
  | stable =>
    simp only [phase] at onTarget
    subst onTarget
    simp [slotOf?, target?, phase, inActive, findPlaced, hitPlaced, Rows.row]
  | resizing cursor table =>
    simp only [phase] at onTarget
    have positive := target_positive tidy phase
    have inTarget := Table.find?_ok onTarget.1 positive (target_short laid) (map.hash key) key
    simp only [slotOf?, target?, phase, inTarget, inActive, ok_bind, findPlaced, hitPlaced]
    cases (target.row (bucketOf target.length (map.hash key))).find? (·.2.1 == key) with
    | none => rfl
    | some placed => rfl

theorem entryOf?_refines {p : Plain K V} (represents : Represents map p) (tidy : p.Tidy)
    (key : K) : map.entryOf? key = .ok (p.find? key) := by
  obtain ⟨active, target, laid, rfl⟩ := represents
  unfold entryOf?
  rw [slotOf?_ok laid tidy, find?_plainOf laid]
  cases found : findPlaced map active target key with
  | none => rfl
  | some placed =>
    obtain ⟨next, held⟩ := stored_of_laid laid (findPlaced_mem found)
    simp [Arena.read_ok held, Entry.pair]

end MemIndex.ChainMap
