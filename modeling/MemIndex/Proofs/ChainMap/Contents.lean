import MemIndex.Proofs.ChainMap.Dividing
import MemIndex.Proofs.ChainMap.Readings

/- What a map holds, read off its slots, and the walks over it. A walk stops by its counter, so it
   gives everything just when the counter counts the chains it leads through. -/
namespace MemIndex.ChainMap

variable {K V : Type}

def Store.pairs (store : Store K V) : List (K × V) :=
  (List.range store.slots.size).filterMap fun slot => (store.get? slot).map Entry.pair

/-- A walk that gives these pairs, one with each call, and nothing ever after. What it counts are
the pairs to come. -/
def Walk.Deals (walk : Walk K V) (pairs : List (K × V)) : Prop :=
  ∀ n, ∃ rest,
    runAll (fun _ : Unit => Walk.next) (List.replicate n ()) walk =
        .ok ((List.range n).map (pairs[·]?), rest) ∧
      rest.remaining = pairs.length - n

section Slots

theorem pairs_unlinked {store next : Store K V} (same : unlinked next = unlinked store) :
    Store.pairs next = Store.pairs store := by
  have size : ∀ store : Store K V, (unlinked store).slots.size = store.slots.size := fun store =>
    Array.size_map
  unfold Store.pairs
  simp only [← get?_unlinked, ← size, same]

theorem pairs_of_owns {store : Store K V} {placed : List (Placed K V)}
    (owns : Owns store placed)
    (held : ∀ x ∈ placed, (store.get? x.1).map Entry.pair = some x.2) :
    (placed.map (·.2)).Perm (Store.pairs store) := by
  have stored : ∀ slot, slot ∈ slotsOf placed ↔
      slot < store.slots.size ∧ ((store.get? slot).map Entry.pair).isSome = true := by
    intro slot
    have inUse : slot ∈ slotsOf placed ↔ (store.get? slot).isSome = true := by
      rw [Option.isSome_iff_ne_none, ne_eq, owns.occupied, not_not]
    rw [inUse, Option.isSome_map, iff_and_self]
    intro some
    obtain ⟨entry, here⟩ := Option.isSome_iff_exists.mp some
    exact Arena.lt_size_of_get? here
  have each : placed.filterMap (fun x => (store.get? x.1).map Entry.pair) =
      placed.filterMap (some ∘ (·.2)) := List.filterMap_congr held
  have read : placed.map (·.2) =
      (slotsOf placed).filterMap fun slot => (store.get? slot).map Entry.pair := by
    rw [slotsOf, List.filterMap_map, ← List.filterMap_eq_map]
    exact each.symm
  -- Both read the slots in use, one chain after another or by their numbers.
  rw [read]
  exact (Arena.filterMap_range_perm owns.distinct stored).symm

theorem entries_stored {map : ChainMap K V} {p : Plain K V} (represents : Represents map p) :
    p.entries.Perm map.store.pairs := by
  obtain ⟨active, target, laid, rfl⟩ := represents
  rw [entries_plainOf laid]
  refine pairs_of_owns laid.owns ?_
  rintro ⟨slot, pair⟩ member
  obtain ⟨next, here⟩ := stored_of_laid laid member
  rw [here]
  rfl

end Slots

section Walks

theorem deals_of_stands {walk : Walk K V} {rows : Rows (Placed K V)} {pending : List (Placed K V)}
    (stands : walk.Stands rows pending) : walk.Deals (pending.map (·.2)) := by
  intro n
  induction n generalizing walk pending with
  | zero => exact ⟨walk, rfl, by simp [stands.counted]⟩
  | succ n ih =>
    rw [List.replicate_succ, List.range_succ_eq_map, List.map_cons, List.map_map]
    cases pending with
    | nil =>
      have ended : walk.next = .ok (none, walk) := by
        have none : walk.remaining = 0 := stands.counted
        rw [Walk.next, if_pos none]
        rfl
      obtain ⟨rest, others, left⟩ := ih stands
      refine ⟨rest, ?_, left.trans (by simp)⟩
      simp [runAll, ended, others, Function.comp_def]
    | cons x pending =>
      obtain ⟨after, first, between⟩ := Walk.next_ok stands
      obtain ⟨rest, others, left⟩ := ih between
      refine ⟨rest, ?_, left.trans (by simp)⟩
      simp [runAll, first, others, Function.comp_def]

theorem walk_settled {map : ChainMap K V} {outcome : Outcome (ChainMap K V) Event (Walk K V)}
    (done : map.walk = .ok outcome) : map.settled = .ok outcome.state := by
  obtain ⟨settled, first, same⟩ := bind_eq_ok.mp done
  cases same
  rw [ChainMap.settled, first]
  rfl

end Walks

structure Halves (map : ChainMap K V) (front back : List (K × V)) : Prop where
  active : (Walk.ofTable map.store map.active map.active.len).Deals front
  counted : map.active.len = front.length
  target : match map.target? with
    | none => back = []
    | some target =>
      (Walk.ofTable map.store target target.len).Deals back ∧ target.len = back.length

structure WalksWhole (map : ChainMap K V) : Prop where
  /-- A walk brings a resize to its end. Each pair stays in its slot, and is given once. -/
  settled : ∃ outcome pairs, map.walk = .ok outcome ∧ outcome.state.isResizing = false ∧
    unlinked outcome.state.store = unlinked map.store ∧ outcome.answer.Deals pairs ∧
    pairs.Perm map.store.pairs ∧ map.toList = .ok { outcome with answer := pairs } ∧
    map.keys = .ok { outcome with answer := pairs.map (·.1) } ∧
    map.values = .ok { outcome with answer := pairs.map (·.2) }
  raw : ∃ front back, Halves map front back ∧ (front ++ back).Perm map.store.pairs ∧
    map.listing = .ok (front ++ back) ∧
    ∀ [Text.Display K] [Text.Display V], Text.ofMap map = .ok (Text.ofPairs (front ++ back))

section Whole

variable {map : ChainMap K V} {p : Plain K V}

theorem halves_of_laid {active target : Rows (Placed K V)} (laid : Laid map active target) :
    Halves map (active.flatten.map (·.2)) (target.flatten.map (·.2)) := by
  refine ⟨deals_of_stands (Walk.ofTable_stands laid.activeLays laid.activeLen), ?_, ?_⟩
  · rw [List.length_map, laid.activeLen]
  · have onTarget := laid.targetLays
    cases phase : map.phase with
    | stable =>
      simp only [phase] at onTarget
      simp [target?, phase, onTarget]
    | resizing cursor table =>
      simp only [phase] at onTarget
      obtain ⟨lays, counted⟩ := onTarget
      simp only [target?, phase, List.length_map]
      exact ⟨deals_of_stands (Walk.ofTable_stands lays counted), counted⟩

theorem walks_of_depicts (depicts : Depicts map p) : WalksWhole map := by
  constructor
  · obtain ⟨outcome, active, done, -, stands, rows, after⟩ :=
      walk_stands depicts.represents depicts.tidy
    have store := settled_keeps (walk_settled done)
    have stable := Plain.settle_stable p
    have whole : p.settle.1.entries = active.flatten.map (·.2) := by
      rw [Plain.entries, ← rows, Rows.flatten_mapEach]
      simp [Plain.target, stable]
    have listed : map.toList = .ok { outcome with answer := active.flatten.map (·.2) } := by
      simp [toList, done, Walk.toList_stands stands]
    refine ⟨outcome, active.flatten.map (·.2), done, ?_, store, deals_of_stands stands, ?_, listed,
      ?_, ?_⟩
    · rw [isResizing_refines after, stable]
      rfl
    · rw [← whole, ← pairs_unlinked store]
      exact entries_stored after
    · simp [keys, listed]
    · simp [values, listed]
  · have listed := listing_refines depicts.represents
    have perm := entries_stored depicts.represents
    obtain ⟨active, target, laid, rfl⟩ := depicts.represents
    have entries : (plainOf map active target).entries =
        active.flatten.map (·.2) ++ target.flatten.map (·.2) := by
      rw [entries_plainOf laid, List.map_append]
    have listed : map.listing = .ok (plainOf map active target).entries := listed
    rw [entries] at perm listed
    refine ⟨_, _, halves_of_laid laid, perm, listed, ?_⟩
    intro _ _
    rw [Text.ofMap, listed]
    rfl

/-- Every walk over a map, at any moment, gives the pairs that are stored, each of them once, and
then nothing. Nothing needs to be known of the hash function. -/
theorem reachable_walks [BEq K] {hash : K → UInt64} (reachable : Reachable hash map) :
    WalksWhole map := by
  obtain ⟨p, depicts, -⟩ := reachable_depicts reachable
  exact walks_of_depicts depicts

theorem reachable_walks_words :
    ∃ map : ChainMap UInt64 Nat,
      Op.run (.extend [(1, 10), (2, 20), (3, 30), (4, 40), (5, 50), (6, 60)]) (build {} id) =
          .ok (.done, map) ∧ map.isResizing = true ∧
        map.store.pairs = [(1, 10), (2, 20), (3, 30), (4, 40), (5, 50), (6, 60)] ∧
        WalksWhole map := by
  have start : Reachable id (build {} id : ChainMap UInt64 Nat) :=
    build_reachable Config.default_valid id
  have grown : ∃ map : ChainMap UInt64 Nat,
      Op.run (.extend [(1, 10), (2, 20), (3, 30), (4, 40), (5, 50), (6, 60)]) (build {} id) =
          .ok (.done, map) ∧ map.isResizing = true ∧
        map.store.pairs = [(1, 10), (2, 20), (3, 30), (4, 40), (5, 50), (6, 60)] :=
    ⟨_, rfl, rfl, by decide +kernel⟩
  obtain ⟨map, ran, resizing, pairs⟩ := grown
  exact ⟨map, ran, resizing, pairs, reachable_walks (start.step ran)⟩

end Whole

end MemIndex.ChainMap
