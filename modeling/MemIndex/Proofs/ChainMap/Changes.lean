import MemIndex.Proofs.ChainMap.Lookup

/- Storing a new pair, replacing a value and taking a pair out, against the plain map. -/
namespace MemIndex.ChainMap

variable {K V : Type} {map : ChainMap K V} {active target : Rows (Placed K V)}

theorem owns_insert {store : Store K V} {placed : List (Placed K V)} (owns : Owns store placed)
    (room : store.len < Arena.maxSlots) (key : K) (value : V) :
    ∃ slot next, store.insert ⟨key, value, none⟩ = .ok (slot, next) ∧
      next.get? = Function.update store.get? slot (some ⟨key, value, none⟩) ∧
      slot ∉ slotsOf placed ∧ Owns next ((slot, key, value) :: placed) := by
  obtain ⟨slot, next, done, sound, vacant, view, len⟩ :=
    Arena.insert_ok owns.sound room ⟨key, value, none⟩
  have fresh := (owns.occupied slot).mp vacant
  refine ⟨slot, next, done, view, fresh, sound, List.nodup_cons.mpr ⟨fresh, owns.distinct⟩,
    fun other => ?_, by simp [len, owns.len]⟩
  rw [view]
  by_cases same : other = slot
  · simp [same, slotsOf]
  · rw [Function.update_of_ne same, owns.occupied other]
    simp [slotsOf, same]

theorem put_refines {p : Plain K V} (represents : Represents map p) (tidy : p.Tidy)
    (room : map.len < Arena.maxSlots) (key : K) (value : V) :
    ∃ slot store next, map.store.insert ⟨key, value, none⟩ = .ok (slot, store) ∧
      ({ map with store } : ChainMap K V).link key slot = .ok next ∧
      Represents next (p.put key value) := by
  obtain ⟨active, target, laid, rfl⟩ := represents
  obtain ⟨store, table, phase, config, hash⟩ := map
  have positive := active_positive tidy
  obtain ⟨slot, stored, done, view, fresh, owns⟩ :=
    owns_insert laid.owns room key value
  simp only [slotsOf, List.map_append, List.mem_append, not_or] at fresh
  have held : stored.get? slot = some ⟨key, value, none⟩ := by simp [view]
  have activeLays := Table.lays_update laid.activeLays fresh.1 (some ⟨key, value, none⟩)
  have onTarget := laid.targetLays
  rw [← view] at activeLays
  cases phase with
  | stable =>
    simp only at onTarget
    subst onTarget
    obtain ⟨attached, next, link, result⟩ :=
      Table.attach_ok owns.sound activeLays positive (active_distinct laid) (hash key) held fresh.1
    have perm := Rows.put_perm positive (hash key) (slot, key, value)
    refine ⟨slot, stored, ⟨next, attached, .stable, config, hash⟩, done, ?_, _, _,
      ⟨?_, result.lays, ?_, rfl⟩, ?_⟩
    · simp [ChainMap.link, link]
    · exact owns_perm (owns_same owns result.sound result.len result.occupied)
        (perm.symm.append_right _)
    · rw [result.counted, perm.length_eq, List.length_cons, laid.activeLen]
    · simp [plainOf, Plain.put, Rows.mapEach_put]
  | resizing cursor other =>
    simp only at onTarget
    have positive : 0 < target.length := by
      simpa using Plain.target_positive tidy rfl
    have targetLays := Table.lays_update onTarget.1 fresh.2 (some ⟨key, value, none⟩)
    rw [← view] at targetLays
    obtain ⟨attached, next, link, result⟩ :=
      Table.attach_ok owns.sound targetLays positive (target_distinct laid) (hash key) held fresh.2
    have perm := Rows.put_perm positive (hash key) (slot, key, value)
    refine ⟨slot, stored, ⟨next, table, .resizing cursor attached, config, hash⟩, done, ?_,
      active, target.put (hash key) (slot, key, value), ⟨?_, ?_, laid.activeLen, result.lays, ?_⟩,
      ?_⟩
    · simp [ChainMap.link, link]
    · apply owns_perm (owns_same owns result.sound result.len result.occupied)
      exact List.perm_middle.symm.trans (perm.symm.append_left _)
    · exact Table.lays_frame activeLays fun other member =>
        result.elsewhere other (by rintro rfl; exact fresh.1 member)
    · rw [result.counted, perm.length_eq, List.length_cons, onTarget.2]
    · simp [plainOf, Plain.put, Rows.mapEach_put]

section Replacing

variable [BEq K]

structure Replaced (store : Store K V) (table : Table) (rows others : Rows (Placed K V))
    (hash : UInt64) (key : K) (value : V) (last : Store K V) : Prop where
  owns : Owns last ((rows.revise hash (·.2.1 == key) fun x => (x.1, x.2.1, value)).flatten ++
    others.flatten)
  lays : table.Lays last.get? (rows.revise hash (·.2.1 == key) fun x => (x.1, x.2.1, value))
  counted : (rows.revise hash (·.2.1 == key) fun x => (x.1, x.2.1, value)).flatten.length =
    rows.flatten.length
  outside : ∀ slot, slot ∉ rows.slots → last.get? slot = store.get? slot

theorem replaced_ok {store : Store K V} {table : Table} {rows others : Rows (Placed K V)}
    (owns : Owns store (rows.flatten ++ others.flatten)) (lays : table.Lays store.get? rows)
    {hash : K → UInt64} {key : K} {slot : Nat} {pair : K × V}
    (found : hitPlaced hash rows key = some (slot, pair)) (value : V) :
    ∃ entry last, store.read slot = .ok entry ∧ entry.pair = pair ∧
      store.write slot { entry with value } = .ok last ∧
      Replaced store table rows others (hash key) key value last := by
  obtain ⟨k, old⟩ := pair
  have distinct : rows.slots.Nodup := by
    have := owns.distinct
    rw [slotsOf, List.map_append] at this
    exact (List.nodup_append.mp this).1
  obtain ⟨link, held, rewritten⟩ := Table.lays_rewrite lays distinct found value
  obtain ⟨last, done, sound, view, len⟩ := Arena.write_ok owns.sound held ⟨k, value, link⟩
  have discarded := Rows.discard_perm found
  have revised := Rows.revise_perm found fun x : Placed K V => (x.1, x.2.1, value)
  have slots : (slotsOf rows.flatten).Perm (slotsOf
      (rows.revise (hash key) (·.2.1 == key) fun x => (x.1, x.2.1, value)).flatten) := by
    have before : (slotsOf _).Perm (slotsOf _) := discarded.map fun x : Placed K V => x.1
    have after : (slotsOf _).Perm (slotsOf _) := revised.map fun x : Placed K V => x.1
    exact before.symm.trans after.symm
  have occupied : ∀ other, last.get? other = none ↔ store.get? other = none := by
    intro other
    by_cases same : other = slot
    · simp [view, same, held]
    · simp [view, same]
  refine ⟨⟨k, old, link⟩, last, Arena.read_ok held, rfl, done, ?_, ?_, ?_, fun other missed => ?_⟩
  · refine owns_slots (owns_same owns sound len occupied) ?_
    simpa [slotsOf] using slots.append_right (slotsOf others.flatten)
  · rw [view]
    exact rewritten
  · rw [revised.length_eq, ← discarded.length_eq, List.length_cons, List.length_cons]
  · rw [view, Function.update_of_ne]
    rintro rfl
    exact missed (List.mem_map_of_mem (hitPlaced_mem found))

theorem forget_revise (rows : Rows (Placed K V)) (hash : UInt64) (key : K) (value : V) :
    (rows.revise hash (·.2.1 == key) fun x => (x.1, x.2.1, value)).mapEach (·.2) =
      (rows.mapEach (·.2)).revise hash (·.1 == key) fun pair => (pair.1, value) :=
  Rows.mapEach_revise (fun x : Placed K V => x.2) hash (·.1 == key) fun _ => rfl

theorem replace_refines {p : Plain K V} (represents : Represents map p) (tidy : p.Tidy) {key : K}
    {pair : K × V} (found : p.find? key = some pair) (value : V) :
    ∃ slot entry next, map.slotOf? key = .ok (some slot) ∧ map.store.read slot = .ok entry ∧
      entry.pair = pair ∧ map.store.write slot { entry with value } = .ok next ∧
      Represents { map with store := next } (p.replace key value) := by
  obtain ⟨active, target, laid, rfl⟩ := represents
  rw [find?_plainOf laid] at found
  obtain ⟨⟨slot, pair⟩, placed, rfl⟩ := Option.map_eq_some_iff.mp found
  have located := slotOf?_ok laid tidy key
  rw [placed] at located
  have onTarget := laid.targetLays
  rcases Option.or_eq_some_iff.mp placed with there | ⟨missing, here⟩
  · have swapped := owns_perm laid.owns List.perm_append_comm
    cases phase : map.phase with
    | stable =>
      simp only [phase] at onTarget
      subst onTarget
      cases there
    | resizing cursor table =>
      simp only [phase] at onTarget
      obtain ⟨entry, last, read, same, written, result⟩ :=
        replaced_ok swapped onTarget.1 there value
      refine ⟨slot, entry, last, located, read, same, written, active, _,
        ⟨owns_perm result.owns List.perm_append_comm, ?_, laid.activeLen, ?_⟩, ?_⟩
      · exact Table.lays_frame laid.activeLays fun other member =>
          result.outside other (tables_disjoint laid member)
      · exact ⟨result.lays, onTarget.2.trans result.counted.symm⟩
      · rw [Plain.replace, whereFound_target laid there]
        simp [plainOf, phase, forget_revise]
  · obtain ⟨entry, last, read, same, written, result⟩ :=
      replaced_ok laid.owns laid.activeLays here value
    refine ⟨slot, entry, last, located, read, same, written, _, target,
      ⟨result.owns, result.lays, laid.activeLen.trans result.counted.symm, ?_⟩, ?_⟩
    · cases phase : map.phase with
      | stable => simpa only [phase] using onTarget
      | resizing cursor table =>
        simp only [phase] at onTarget
        exact ⟨Table.lays_frame onTarget.1 fun other member =>
          result.outside other fun there => tables_disjoint laid there member, onTarget.2⟩
    · rw [Plain.replace, whereFound_active laid missing]
      simp [plainOf, forget_revise]

end Replacing

end MemIndex.ChainMap
