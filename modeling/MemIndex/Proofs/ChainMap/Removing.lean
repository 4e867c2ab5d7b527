import MemIndex.Proofs.ChainMap.Changes

/- Taking a pair out of a map: its entry leaves its chain first and its slot afterwards. -/
namespace MemIndex.ChainMap

variable {K V : Type} {map : ChainMap K V} {active target : Rows (Placed K V)}

theorem owns_take {store : Store K V} {slot : Nat} {pair : K × V} {rest : List (Placed K V)}
    (owns : Owns store ((slot, pair) :: rest)) {entry : Entry K V}
    (held : store.get? slot = some entry) :
    ∃ next, store.take slot = .ok (entry, next) ∧
      next.get? = Function.update store.get? slot none ∧ slot ∉ slotsOf rest ∧ Owns next rest := by
  obtain ⟨next, done, sound, view, len⟩ := Arena.take_ok owns.sound held
  obtain ⟨fresh, distinct⟩ := List.nodup_cons.mp owns.distinct
  refine ⟨next, done, view, fresh, sound, distinct, fun other => ?_, ?_⟩
  · by_cases same : other = slot
    · subst other
      simp only [view, Function.update_self, true_iff]
      exact fresh
    · rw [view, Function.update_of_ne same, owns.occupied other]
      simp [slotsOf, same]
  · have := owns.len
    rw [List.length_cons] at this
    omega

variable [BEq K]

structure Removed (store : Store K V) (rows others : Rows (Placed K V)) (hash : UInt64) (key : K)
    (left : Table) (last : Store K V) : Prop where
  owns : Owns last ((rows.discard hash (·.2.1 == key)).flatten ++ others.flatten)
  lays : left.Lays last.get? (rows.discard hash (·.2.1 == key))
  counted : left.len = (rows.discard hash (·.2.1 == key)).flatten.length
  outside : ∀ slot, slot ∉ rows.slots → last.get? slot = store.get? slot

theorem removed_ok {store : Store K V} {table : Table} {rows others : Rows (Placed K V)}
    (owns : Owns store (rows.flatten ++ others.flatten)) (lays : table.Lays store.get? rows)
    (counted : table.len = rows.flatten.length) {hash : K → UInt64} {key : K} {slot : Nat}
    {pair : K × V} (found : hitPlaced hash rows key = some (slot, pair)) :
    ∃ left next last, table.detach store (hash key) key = .ok (some (slot, left, next)) ∧
      next.take slot = .ok (⟨pair.1, pair.2, none⟩, last) ∧
      Removed store rows others (hash key) key left last := by
  let rest := rows.discard (hash key) (·.2.1 == key)
  have member : (slot, pair) ∈ rows.flatten := hitPlaced_mem found
  have perm : ((slot, pair) :: rest.flatten).Perm rows.flatten := Rows.discard_perm found
  have positive : 0 < rows.length := by
    cases rows with
    | nil => simp at member
    | cons row rows => simp
  have distinct : rows.slots.Nodup := by
    have := owns.distinct
    unfold slotsOf at this
    rw [List.map_append] at this
    exact (List.nodup_append.mp this).1
  have short : ∀ bucket, (rows.row bucket).length ≤ store.slots.size :=
    short_of_owns owns (by simp)
  have some : 0 < table.len := by
    rw [counted]
    exact List.length_pos_of_mem member
  obtain ⟨left, next, detached, result⟩ :=
    Table.detach_ok owns.sound lays positive distinct short some found
  have inFirst : Owns next ((slot, pair) :: (rest.flatten ++ others.flatten)) :=
    owns_perm (owns_same owns result.sound result.len result.occupied) (perm.symm.append_right _)
  obtain ⟨last, taken, view, fresh, owned⟩ := owns_take inFirst result.left
  simp only [slotsOf, List.map_append, List.mem_append, not_or] at fresh
  refine ⟨left, next, last, detached, taken, owned, ?_, ?_, fun other elsewhere => ?_⟩
  · rw [view]
    exact Table.lays_update result.lays fresh.1 none
  · have fewer := perm.length_eq
    rw [List.length_cons, ← counted, ← result.counted] at fewer
    exact (Nat.succ.inj fewer).symm
  · have differ : other ≠ slot := by
      rintro rfl
      exact elsewhere (List.mem_map_of_mem member)
    rw [view, Function.update_of_ne differ]
    exact result.outside other fun there => elsewhere (Rows.mem_slots there)

theorem unlink_absent {p : Plain K V} (represents : Represents map p) (tidy : p.Tidy) {key : K}
    (absent : p.find? key = none) : map.unlink key = .ok none := by
  obtain ⟨active, target, laid, rfl⟩ := represents
  rw [find?_plainOf laid, Option.map_eq_none_iff, findPlaced, Option.or_eq_none_iff] at absent
  have positive := active_positive tidy
  have fromActive := Table.detach_none laid.activeLays positive (active_short laid) absent.2
  have onTarget := laid.targetLays
  cases phase : map.phase with
  | stable => simp [unlink, phase, unlinkActive, fromActive]
  | resizing cursor table =>
    simp only [phase] at onTarget
    have positive := target_positive tidy phase
    have fromTarget := Table.detach_none onTarget.1 positive (target_short laid) absent.1
    simp [unlink, phase, fromTarget, unlinkActive, fromActive]

theorem forget_discard (rows : Rows (Placed K V)) (hash : UInt64) (key : K) :
    (rows.discard hash (·.2.1 == key)).mapEach (·.2) =
      (rows.mapEach (·.2)).discard hash (·.1 == key) :=
  Rows.mapEach_discard (fun x : Placed K V => x.2) hash (·.1 == key)

theorem discard_refines {p : Plain K V} (represents : Represents map p) (tidy : p.Tidy) {key : K}
    {pair : K × V} (found : p.find? key = some pair) :
    ∃ slot next entry store, map.unlink key = .ok (some (slot, next)) ∧
      next.store.take slot = .ok (entry, store) ∧ entry.pair = pair ∧
      Represents { next with store } (p.discard key) := by
  obtain ⟨active, target, laid, rfl⟩ := represents
  rw [find?_plainOf laid] at found
  obtain ⟨⟨slot, pair⟩, placed, rfl⟩ := Option.map_eq_some_iff.mp found
  have onTarget := laid.targetLays
  rcases Option.or_eq_some_iff.mp placed with there | ⟨missing, here⟩
  · have swapped := owns_perm laid.owns List.perm_append_comm
    cases phase : map.phase with
    | stable =>
      simp only [phase] at onTarget
      subst onTarget
      cases there
    | resizing cursor table =>
      simp only [phase] at onTarget
      obtain ⟨left, next, last, detached, taken, result⟩ :=
        removed_ok swapped onTarget.1 onTarget.2 there
      refine ⟨slot, { map with phase := .resizing cursor left, store := next }, _, last, ?_, taken,
        rfl, active, target.discard (map.hash key) (·.2.1 == key),
        ⟨owns_perm result.owns List.perm_append_comm, ?_, laid.activeLen, result.lays,
          result.counted⟩, ?_⟩
      · simp [unlink, phase, detached]
      · exact Table.lays_frame laid.activeLays fun other member =>
          result.outside other (tables_disjoint laid member)
      · rw [Plain.discard, whereFound_target laid there]
        simp [plainOf, phase, forget_discard]
  · obtain ⟨left, next, last, detached, taken, result⟩ :=
      removed_ok laid.owns laid.activeLays laid.activeLen here
    refine ⟨slot, { map with active := left, store := next }, _, last, ?_, taken, rfl,
      active.discard (map.hash key) (·.2.1 == key), target,
      ⟨result.owns, result.lays, result.counted, ?_⟩, ?_⟩
    · cases phase : map.phase with
      | stable => simp [unlink, phase, unlinkActive, detached]
      | resizing cursor table =>
        simp only [phase] at onTarget
        have positive := target_positive tidy phase
        have fromTarget := Table.detach_none onTarget.1 positive (target_short laid) missing
        simp [unlink, phase, fromTarget, unlinkActive, detached]
    · cases phase : map.phase with
      | stable => simpa only [phase] using onTarget
      | resizing cursor table =>
        simp only [phase] at onTarget
        exact ⟨Table.lays_frame onTarget.1 fun other member =>
          result.outside other fun there => tables_disjoint laid there member, onTarget.2⟩
    · rw [Plain.discard, whereFound_active laid missing]
      simp [plainOf, forget_discard]

end MemIndex.ChainMap
