import MemIndex.Proofs.ChainMap.Consistency

/- A relocation that is cut into several is the same relocation. The tables are the same whatever
   has been counted before, so buckets may be relocated in one pass or in two; the counters add up;
   and the end of the resize comes at the same bucket. -/
namespace MemIndex.ChainMap

variable {K V : Type}

section Links

variable {store next : Store K V}

def withoutLink : Slot (Entry K V) → Slot (K × V)
  | .occupied entry => .occupied entry.pair
  | .vacant next => .vacant next

/-- A store whose chains are forgotten. The vacant slots keep their order. -/
def unlinked (store : Store K V) : Arena (K × V) where
  slots := store.slots.map withoutLink
  free := store.free
  len := store.len
  capacity := store.capacity

theorem get?_unlinked (store : Store K V) (slot : Nat) :
    (unlinked store).get? slot = (store.get? slot).map Entry.pair := by
  simp only [Arena.get?, unlinked, Array.getElem?_map]
  rcases store.slots[slot]? with _ | _ | _ <;> rfl

theorem modify_unlinked {slot : Nat} (change : Entry K V → Entry K V)
    (same : ∀ entry, (change entry).pair = entry.pair)
    (done : store.modify slot change = .ok next) : unlinked next = unlinked store := by
  obtain ⟨entry, read, written⟩ := bind_eq_ok.mp done
  cases held : store.get? slot with
  | none => simp [Arena.write, Arena.set?, held] at written
  | some other =>
    simp only [Arena.read, held] at read
    cases read
    simp only [Arena.write, Arena.set?, held] at written
    cases written
    have here := Arena.get?_eq_some_iff.mp held
    have slots : (store.slots.setIfInBounds slot (.occupied (change entry))).map withoutLink =
        store.slots.map withoutLink := by
      apply Array.ext_getElem?
      intro other
      rw [Array.getElem?_map, Array.getElem?_map, Array.getElem?_setIfInBounds]
      split
      · rename_i place
        subst place
        rw [if_pos (Arena.lt_size_of_get? held), here]
        exact congrArg (fun pair => some (Slot.occupied pair)) (same entry)
      · rfl
    simp only [unlinked, slots]

end Links

namespace Transfer

variable (hash : K → UInt64) {transfer next : Transfer K V}

theorem entry_keeps {placed : Nat × Entry K V}
    (done : Transfer.entry hash transfer placed = .ok next) :
    next.active = transfer.active ∧ unlinked next.store = unlinked transfer.store := by
  obtain ⟨⟨target, store⟩, attached, same⟩ := bind_eq_ok.mp done
  cases same
  obtain ⟨head, -, modified⟩ := bind_eq_ok.mp attached
  obtain ⟨changed, modified, same⟩ := bind_eq_ok.mp modified
  cases same
  exact ⟨rfl, modify_unlinked ({ · with next := head }) (fun _ => rfl) modified⟩

theorem bucket_keeps {bucket : Nat} (done : Transfer.bucket hash transfer bucket = .ok next) :
    (next.active.buckets, next.active.len, unlinked next.store) =
      (transfer.active.buckets, transfer.active.len, unlinked transfer.store) := by
  obtain ⟨chain, -, folded⟩ := bind_eq_ok.mp done
  have same := foldlM_keeps (fun t : Transfer K V => (t.active, unlinked t.store))
    (fun t placed next done => Prod.ext_iff.mpr (entry_keeps hash done)) folded
  obtain ⟨active, store⟩ := Prod.ext_iff.mp same
  simp only at active store
  rw [active, store]
  simp [Table.setHead, Table.buckets]

theorem buckets_keep {buckets : List Nat}
    (done : buckets.foldlM (Transfer.bucket hash) transfer = .ok next) :
    next.active.buckets = transfer.active.buckets ∧ next.active.len = transfer.active.len ∧
      unlinked next.store = unlinked transfer.store := by
  have same := foldlM_keeps
    (fun t : Transfer K V => (t.active.buckets, t.active.len, unlinked t.store))
    (fun t bucket next done => bucket_keeps hash done) done
  simpa only [Prod.mk.injEq] using same

/-- The transfer as the rest of a longer one, from a table that was counted as `len` and after so
many entries had been moved. -/
def resumed (len moved : Nat) (transfer : Transfer K V) : Transfer K V :=
  { transfer with
    active := { transfer.active with len }
    moved := moved + transfer.moved }

theorem entry_resumed (len moved : Nat) (transfer : Transfer K V) (placed : Nat × Entry K V) :
    Transfer.entry hash (transfer.resumed len moved) placed =
      (Transfer.entry hash transfer placed).map (resumed len moved) := by
  simp only [Transfer.entry, resumed]
  cases transfer.target.attach transfer.store (hash placed.2.key) placed.1 with
  | error fault => rfl
  | ok attached => rfl

theorem bucket_resumed (len moved : Nat) (transfer : Transfer K V) (bucket : Nat) :
    Transfer.bucket hash (transfer.resumed len moved) bucket =
      (Transfer.bucket hash transfer bucket).map (resumed len moved) := by
  have chain : (transfer.resumed len moved).active.chain (transfer.resumed len moved).store bucket =
      transfer.active.chain transfer.store bucket := rfl
  simp only [Transfer.bucket, chain]
  cases transfer.active.chain transfer.store bucket with
  | error fault => rfl
  | ok chain =>
    exact foldlM_commutes (entry_resumed hash len moved) chain
      { transfer with active := transfer.active.setHead bucket none }

def rest (done : Transfer K V) : Transfer K V :=
  ⟨{ done.active with len := done.active.len - done.moved }, done.target, done.store, 0⟩

/-- The buckets of a longer relocation that come later may as well be relocated by themselves. -/
theorem buckets_rest (done : Transfer K V) (buckets : List Nat) :
    buckets.foldlM (Transfer.bucket hash) done =
      (buckets.foldlM (Transfer.bucket hash) done.rest).map
        (resumed done.active.len done.moved) :=
  foldlM_commutes (bucket_resumed hash done.active.len done.moved) buckets done.rest

end Transfer

def relocated (map : ChainMap K V) (steps : Nat) : Except Fault (ChainMap K V) := do
  return (← map.relocate steps).1

def settled (map : ChainMap K V) : Except Fault (ChainMap K V) := do
  return (← map.settle).state

/-- The map once the buckets before `stop` have been relocated. -/
def reached (map : ChainMap K V) (stop : Nat) (done : Transfer K V) :
    Except Fault (ChainMap K V) := do
  let left ← subtract done.active.len done.moved
  if stop < map.active.buckets then
    return { map with
      store := done.store
      active := { done.active with len := left }
      phase := .resizing stop done.target }
  else if left = 0 then
    return { map with store := done.store, active := done.target, phase := .stable }
  else throw (.leftBehind left)

section Cutting

variable {map mid next : ChainMap K V} {cursor : Nat} {target : Table}

theorem relocated_stable (stable : map.phase = .stable) (steps : Nat) :
    map.relocated steps = .ok map := by
  simp [relocated, relocate, stable]

theorem relocated_resizing (phase : map.phase = .resizing cursor target) (steps : Nat) :
    map.relocated steps =
      (List.range' cursor (min (cursor + steps) map.active.buckets - cursor)).foldlM
          (Transfer.bucket map.hash) ⟨map.active, target, map.store, 0⟩ >>=
        map.reached (min (cursor + steps) map.active.buckets) := by
  simp only [relocated, relocate, phase, bind_assoc]
  congr 1
  funext done
  simp only [reached]
  congr 1
  funext left
  split
  · rfl
  · split
    · rfl
    · rfl

theorem relocated_enough {steps : Nat} (enough : map.active.buckets ≤ steps) :
    map.relocated steps = map.settled := by
  have whole : map.settled = map.relocated map.active.buckets := by
    simp only [settled, settle, relocated, bind_assoc]
    rfl
  cases phase : map.phase with
  | stable => rw [whole, relocated_stable phase, relocated_stable phase]
  | resizing cursor target =>
    have stop : min (cursor + steps) map.active.buckets =
        min (cursor + map.active.buckets) map.active.buckets := by omega
    rw [whole, relocated_resizing phase, relocated_resizing phase, stop]

def between (map : ChainMap K V) (middle : Nat) (done : Transfer K V) : ChainMap K V :=
  { map with
    store := done.store
    active := done.rest.active
    phase := .resizing middle done.target }

theorem reached_before {done : Transfer K V} {middle : Nat} (more : middle < map.active.buckets) :
    map.reached middle done = if done.moved ≤ done.active.len then .ok (map.between middle done)
      else .error .belowZero := by
  unfold reached subtract
  by_cases enough : done.moved ≤ done.active.len
  · rw [if_pos enough, if_pos enough, ok_bind, if_pos more]
    rfl
  · rw [if_neg enough, if_neg enough]
    rfl

theorem reached_between {done last : Transfer K V} {middle : Nat} (stop : Nat)
    (size : done.active.buckets = map.active.buckets) (enough : done.moved ≤ done.active.len)
    (len : last.active.len = done.rest.active.len) :
    (map.between middle done).reached stop last =
      map.reached stop (last.resumed done.active.len done.moved) := by
  have sameSize : (map.between middle done).active.buckets = map.active.buckets := size
  have total : subtract last.active.len last.moved =
      subtract done.active.len (done.moved + last.moved) := by
    simp only [len, Transfer.rest, subtract, Nat.le_sub_iff_add_le' enough, Nat.sub_sub]
  simp only [reached, sameSize, total]
  rfl

theorem relocated_between (phase : map.phase = .resizing cursor target) {a : Nat}
    (more : cursor + a < map.active.buckets) (b : Nat) :
    (map.relocated a >>= (·.relocated b)) = .ok next ↔ map.relocated (a + b) = .ok next := by
  have middle : min (cursor + a) map.active.buckets = cursor + a := by omega
  let stop := min (cursor + a + b) map.active.buckets
  have whole : min (cursor + (a + b)) map.active.buckets = stop := by omega
  have parts : List.range' cursor (stop - cursor) =
      List.range' cursor a ++ List.range' (cursor + a) (stop - (cursor + a)) := by
    rw [List.range'_append_1]
    congr 1
    omega
  rw [relocated_resizing phase, relocated_resizing phase, middle, whole, parts,
    List.foldlM_append, Nat.add_sub_cancel_left]
  cases folded : (List.range' cursor a).foldlM (Transfer.bucket map.hash)
      ⟨map.active, target, map.store, 0⟩ with
  | error fault => simp
  | ok done =>
    obtain ⟨size, -, -⟩ := Transfer.buckets_keep map.hash folded
    have size : done.active.buckets = map.active.buckets := size
    -- The second relocation reads nothing of the first but the tables and the store it left.
    have second : (map.between (cursor + a) done).relocated b =
        (List.range' (cursor + a) (stop - (cursor + a))).foldlM (Transfer.bucket map.hash)
            done.rest >>=
          (map.between (cursor + a) done).reached stop := by
      have sameSize : (map.between (cursor + a) done).active.buckets = map.active.buckets := size
      rw [relocated_resizing rfl, sameSize]
      rfl
    rw [ok_bind, ok_bind, reached_before more, Transfer.buckets_rest]
    cases later : (List.range' (cursor + a) (stop - (cursor + a))).foldlM
        (Transfer.bucket map.hash) done.rest with
    | error fault =>
      split
      · simp [second, later, Except.map]
      · simp [Except.map]
    | ok last =>
      have len := (Transfer.buckets_keep map.hash later).2.1
      simp only [Except.map, ok_bind]
      by_cases enough : done.moved ≤ done.active.len
      · rw [if_pos enough, ok_bind, second, later, ok_bind, reached_between stop size enough len]
      -- A counter too small for the buckets of the first part is too small for all of them.
      · have short : ¬ done.moved + last.moved ≤ done.active.len := by omega
        simp [enough, reached, Transfer.resumed, subtract, short]

theorem relocated_over (phase : map.phase = .resizing cursor target) {steps : Nat}
    (reach : map.active.buckets ≤ cursor + steps) (done : map.relocated steps = .ok mid) :
    mid.phase = .stable := by
  have stop : min (cursor + steps) map.active.buckets = map.active.buckets := by omega
  rw [relocated_resizing phase, stop] at done
  obtain ⟨last, -, ended⟩ := bind_eq_ok.mp done
  obtain ⟨left, -, ended⟩ := bind_eq_ok.mp ended
  rw [if_neg (Nat.lt_irrefl _)] at ended
  split at ended
  · cases ended
    rfl
  · cases ended

/-- As many buckets relocated twice as once. It does not matter how the map came about. -/
theorem relocated_relocated (map next : ChainMap K V) (a b : Nat) :
    (map.relocated a >>= (·.relocated b)) = .ok next ↔ map.relocated (a + b) = .ok next := by
  cases phase : map.phase with
  | stable => simp [relocated_stable phase]
  | resizing cursor target =>
    by_cases more : cursor + a < map.active.buckets
    · exact relocated_between phase more b
    · have stop : min (cursor + (a + b)) map.active.buckets =
          min (cursor + a) map.active.buckets := by omega
      have same : map.relocated (a + b) = map.relocated a := by
        rw [relocated_resizing phase, relocated_resizing phase, stop]
      have ended : ∀ mid, map.relocated a = .ok mid → mid.phase = .stable := fun mid first =>
        relocated_over phase (Nat.le_of_not_lt more) first
      rw [same, bind_eq_ok]
      constructor
      · rintro ⟨mid, first, second⟩
        rw [relocated_stable (ended mid first)] at second
        rw [first, second]
      · intro first
        exact ⟨next, first, relocated_stable (ended next first) b⟩

theorem relocated_keeps {steps : Nat} (done : map.relocated steps = .ok next) :
    (next.phase = .stable ∨ next.active.buckets = map.active.buckets) ∧
      unlinked next.store = unlinked map.store := by
  cases phase : map.phase with
  | stable =>
    rw [relocated_stable phase] at done
    cases done
    exact ⟨Or.inl phase, rfl⟩
  | resizing cursor target =>
    rw [relocated_resizing phase] at done
    obtain ⟨last, folded, ended⟩ := bind_eq_ok.mp done
    obtain ⟨size, -, store⟩ := Transfer.buckets_keep map.hash folded
    obtain ⟨left, -, ended⟩ := bind_eq_ok.mp ended
    split at ended
    · cases ended
      exact ⟨Or.inr size, store⟩
    · split at ended
      · cases ended
        exact ⟨Or.inl rfl, store⟩
      · cases ended

theorem settled_keeps (done : map.settled = .ok next) :
    unlinked next.store = unlinked map.store := by
  rw [← relocated_enough (Nat.le_refl _)] at done
  exact (relocated_keeps done).2

theorem relocated_settled (map next : ChainMap K V) (steps : Nat) :
    (map.relocated steps >>= settled) = .ok next ↔ map.settled = .ok next := by
  have rest : ∀ mid, map.relocated steps = .ok mid →
      mid.settled = mid.relocated map.active.buckets := by
    intro mid first
    rcases (relocated_keeps first).1 with stable | size
    · rw [← relocated_enough (Nat.le_refl _), relocated_stable stable, relocated_stable stable]
    · rw [relocated_enough (Nat.le_of_eq size)]
  have whole : map.relocated (steps + map.active.buckets) = map.settled :=
    relocated_enough (Nat.le_add_left _ _)
  rw [← whole, ← relocated_relocated, bind_eq_ok, bind_eq_ok]
  exact exists_congr fun mid => and_congr_right fun first => by rw [rest mid first]

theorem cuts_settled (cuts : List Nat) (map next : ChainMap K V) :
    (cuts.foldlM relocated map >>= settled) = .ok next ↔ map.settled = .ok next := by
  induction cuts generalizing map with
  | nil => rfl
  | cons steps rest ih =>
    rw [List.foldlM_cons, bind_assoc, ← relocated_settled map next steps, bind_eq_ok, bind_eq_ok]
    exact exists_congr fun mid => and_congr_right fun _ => ih mid

end Cutting

/-- However a resize is cut into relocations, the map that is left is the same: its chains in their
order, its store, its counters, its cursor and its phase. -/
structure Divides (map : ChainMap K V) : Prop where
  /-- Numbers of steps are added up to a largest one, which no table outgrows. -/
  twice : ∀ a b limit, map.active.buckets ≤ limit → ∃ next,
    (map.relocated a >>= (·.relocated b)) = .ok next ∧ map.relocated (min (a + b) limit) = .ok next
  cut : ∀ cuts : List Nat, ∃ next,
    (cuts.foldlM relocated map >>= settled) = .ok next ∧ map.settled = .ok next
  kept : ∀ cuts : List Nat, ∃ next,
    cuts.foldlM relocated map = .ok next ∧ unlinked next.store = unlinked map.store

theorem relocated_depicts {map : ChainMap K V} {p : Plain K V} (depicts : Depicts map p)
    (steps : Nat) : ∃ next, map.relocated steps = .ok next := by
  obtain ⟨next, done, -⟩ := relocate_refines depicts.represents depicts.tidy steps
  exact ⟨next, by rw [relocated, done]; rfl⟩

theorem relocation_divides {hash : K → UInt64} {map : ChainMap K V}
    {active target : Rows (Placed K V)} (consistent : Consistent hash map active target)
    (sound : map.store.Sound) : Divides map := by
  have depicts := depicts_of_consistent consistent sound
  have cut : ∀ cuts : List Nat, ∃ next,
      (cuts.foldlM relocated map >>= settled) = .ok next ∧ map.settled = .ok next := by
    intro cuts
    obtain ⟨next, done⟩ := relocated_depicts depicts map.active.buckets
    rw [relocated_enough (Nat.le_refl _)] at done
    exact ⟨next, (cuts_settled cuts map next).mpr done, done⟩
  refine ⟨fun a b limit enough => ?_, cut, fun cuts => ?_⟩
  · obtain ⟨next, done⟩ := relocated_depicts depicts (a + b)
    refine ⟨next, (relocated_relocated map next a b).mpr done, ?_⟩
    rcases Nat.le_total (a + b) limit with small | large
    · rwa [Nat.min_eq_left small]
    · rw [Nat.min_eq_right large, relocated_enough enough]
      rwa [relocated_enough (enough.trans large)] at done
  · obtain ⟨last, done, -⟩ := cut cuts
    obtain ⟨next, folded, -⟩ := bind_eq_ok.mp done
    exact ⟨next, folded, foldlM_keeps (fun map : ChainMap K V => unlinked map.store)
      (fun map steps next done => (relocated_keeps done).2) folded⟩

theorem relocation_divides_words :
    ∃ map : ChainMap UInt64 Nat,
      Op.run (.extend [(1, 10), (2, 20), (3, 30), (4, 40), (5, 50), (6, 60)]) (build {} id) =
          .ok (.done, map) ∧ map.isResizing = true ∧
        (∃ active target, Consistent id map active target) ∧ map.store.Sound ∧ Divides map := by
  have start : Reachable id (build {} id : ChainMap UInt64 Nat) :=
    build_reachable Config.default_valid id
  have grown : ∃ map : ChainMap UInt64 Nat,
      Op.run (.extend [(1, 10), (2, 20), (3, 30), (4, 40), (5, 50), (6, 60)]) (build {} id) =
        .ok (.done, map) ∧ map.isResizing = true := ⟨_, rfl, rfl⟩
  obtain ⟨map, ran, resizing⟩ := grown
  obtain ⟨p, ⟨⟨active, target, laid, rfl⟩, tidy⟩, hashed⟩ := reachable_depicts (start.step ran)
  have itsHash : map.hash = id := hashed
  have consistent := consistent_of_laid laid tidy
  rw [itsHash] at consistent
  exact ⟨map, ran, resizing, ⟨active, target, consistent⟩, laid.owns.sound,
    relocation_divides consistent laid.owns.sound⟩

end MemIndex.ChainMap
