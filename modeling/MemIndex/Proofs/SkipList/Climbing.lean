import MemIndex.Proofs.SkipList.Safety

/- The top level of a list is that of its tallest node, and the changes of the top level that it
   reports lead from one to the next, from the bottom on. The changes are read off the operations
   alone; that the level is right needs the layout of the whole list. -/
namespace MemIndex.SkipList

variable {K V γ : Type}

/-- From one level to another by changes that follow each other, up when raised and down when
lowered. -/
inductive Climbs : Nat → List Event → Nat → Prop where
  | still (level : Nat) : Climbs level [] level
  | raised {before after last : Nat} {rest : List Event} (up : before < after)
    (onward : Climbs after rest last) : Climbs before (.raised before after :: rest) last
  | lowered {before after last : Nat} {rest : List Event} (down : after < before)
    (onward : Climbs after rest last) : Climbs before (.lowered before after :: rest) last

def entryHeight (nodes : Arena (Node K V)) (slot : Nat) : Option Nat :=
  (nodes.get? slot).bind fun node => node.entry.map fun _ => node.links.size

def heights (nodes : Arena (Node K V)) : List Nat :=
  (List.range nodes.slots.size).filterMap (entryHeight nodes)

/-- A list, and what it reported since it was made or cleared. -/
structure Logged (K V γ : Type) where
  list : SkipList K V γ
  log : List Event

def Logged.begin (config : Config) (draws : γ) : Logged K V γ := ⟨build config draws, []⟩

section Events

theorem climbs_append {first second last : Nat} {events more : List Event}
    (start : Climbs first events second) (rest : Climbs second more last) :
    Climbs first (events ++ more) last := by
  induction start with
  | still level => exact rest
  | raised up onward ih => exact .raised up (ih rest)
  | lowered down onward ih => exact .lowered down (ih rest)

variable {list next : SkipList K V γ}

structure Told (list : SkipList K V γ) (events : List Event) (next : SkipList K V γ) : Prop where
  climbs : Climbs list.level events next.level
  maxLevels : next.maxLevels = list.maxLevels

theorem told_nothing (list : SkipList K V γ) : Told list [] list := ⟨.still _, rfl⟩

theorem told_trans {last : SkipList K V γ} {events more : List Event}
    (first : Told list events next) (second : Told next more last) :
    Told list (events ++ more) last :=
  ⟨climbs_append first.climbs second.climbs, second.maxLevels.trans first.maxLevels⟩

theorem raise_told {level : Nat} {path more : Array Stop} {events : List Event}
    (done : list.raise level path = .ok (next, more, events)) : Told list events next := by
  unfold raise at done
  split at done
  · cases done
    exact told_nothing list
  · rename_i above
    split at done
    · cases done
    · obtain ⟨nodes, -, done⟩ := bind_eq_ok.mp done
      cases done
      exact ⟨.raised (Nat.lt_of_not_le above) (.still level), rfl⟩

theorem occupiedLevel_le {nodes : Arena (Node K V)} {level last : Nat}
    (done : occupiedLevel nodes level = .ok last) : last ≤ level := by
  induction level with
  | zero =>
    cases done
    exact Nat.le_refl 0
  | succ level ih =>
    obtain ⟨link, -, done⟩ := bind_eq_ok.mp done
    split at done
    · exact Nat.le_succ_of_le (ih done)
    · cases done
      exact Nat.le_refl _

variable [Ord K]

theorem insert_told [DrawSource γ] {key : K} {value : V}
    {outcome : Outcome (SkipList K V γ) Event Bool} (done : list.insert key value = .ok outcome) :
    Told list outcome.events outcome.state := by
  unfold SkipList.insert at done
  obtain ⟨path, -, done⟩ := bind_eq_ok.mp done
  obtain ⟨⟨raised, stops, events⟩, first, done⟩ := bind_eq_ok.mp done
  obtain ⟨before, -, done⟩ := bind_eq_ok.mp done
  obtain ⟨links, -, done⟩ := bind_eq_ok.mp done
  obtain ⟨⟨slot, stored⟩, -, done⟩ := bind_eq_ok.mp done
  obtain ⟨spliced, -, done⟩ := bind_eq_ok.mp done
  obtain ⟨after, -, done⟩ := bind_eq_ok.mp done
  obtain ⟨nodes, -, done⟩ := bind_eq_ok.mp done
  cases done
  have told := raise_told first
  exact ⟨told.climbs, told.maxLevels⟩

theorem remove_told {key : K} {outcome : Outcome (SkipList K V γ) Event (Option (K × V))}
    (done : list.remove key = .ok outcome) : Told list outcome.events outcome.state := by
  unfold remove at done
  obtain ⟨path, -, done⟩ := bind_eq_ok.mp done
  obtain ⟨before, -, done⟩ := bind_eq_ok.mp done
  obtain ⟨link, -, done⟩ := bind_eq_ok.mp done
  dsimp only at done
  split at done
  · cases done
    exact told_nothing list
  · obtain ⟨found, -, done⟩ := bind_eq_ok.mp done
    split at done
    · cases done
      exact told_nothing list
    · obtain ⟨⟨removed, freed⟩, -, done⟩ := bind_eq_ok.mp done
      obtain ⟨bypassed, -, done⟩ := bind_eq_ok.mp done
      split at done
      · cases done
      · obtain ⟨nodes, -, done⟩ := bind_eq_ok.mp done
        obtain ⟨level, occupied, done⟩ := bind_eq_ok.mp done
        obtain ⟨len, -, done⟩ := bind_eq_ok.mp done
        cases done
        refine ⟨?_, rfl⟩
        have low := occupiedLevel_le occupied
        split
        · rename_i same
          rw [same]
          exact .still _
        · rename_i differ
          exact .lowered (Nat.lt_of_le_of_ne low differ) (.still level)

theorem erase_told {key : K} {outcome : Outcome (SkipList K V γ) Event Bool}
    (done : list.erase key = .ok outcome) : Told list outcome.events outcome.state := by
  obtain ⟨removed, first, done⟩ := bind_eq_ok.mp done
  cases done
  exact remove_told first

theorem extend_told [DrawSource γ] {entries : List (K × V)}
    {outcome : Outcome (SkipList K V γ) Event Unit} (done : list.extend entries = .ok outcome) :
    Told list outcome.events outcome.state := by
  induction entries generalizing list outcome with
  | nil =>
    cases done
    exact told_nothing list
  | cons entry rest ih =>
    obtain ⟨one, first, done⟩ := bind_eq_ok.mp done
    obtain ⟨all, others, done⟩ := bind_eq_ok.mp done
    cases done
    exact told_trans (insert_told first) (ih others)

end Events

section Heights

variable {nodes : Arena (Node K V)} {level maxLevels : Nat} {items : List (Item K V)}

theorem height_of_item (woven : Woven nodes level maxLevels items) {item : Item K V}
    (member : item ∈ items) : entryHeight nodes item.tower.slot = some item.tower.height := by
  obtain ⟨node, here, entry⟩ := Option.map_eq_some_iff.mp (woven.entries item member)
  have height := woven.heights item member
  rw [heightOf, here, Option.map_some, Option.some_inj] at height
  rw [entryHeight, here, Option.bind_some, entry, Option.map_some, height]

theorem entryHeight_isSome (woven : Woven nodes level maxLevels items) (slot : Nat) :
    (entryHeight nodes slot).isSome = true ↔ slot ∈ slots items := by
  constructor
  · intro stored
    obtain ⟨height, stored⟩ := Option.isSome_iff_exists.mp stored
    obtain ⟨node, here, entry⟩ := Option.bind_eq_some_iff.mp stored
    obtain ⟨pair, entry, -⟩ := Option.map_eq_some_iff.mp entry
    have inStore : slot ∈ head :: tail :: slots items := by
      by_contra away
      have nothing := (woven.occupied slot).mpr away
      rw [heightOf, here] at nothing
      cases nothing
    have notEnd : entryOf nodes slot ≠ some none := by
      rw [entryOf, here, Option.map_some, entry]
      simp
    rcases List.mem_cons.mp inStore with rfl | inStore
    · exact absurd woven.ends.1 notEnd
    · rcases List.mem_cons.mp inStore with rfl | inItems
      · exact absurd woven.ends.2 notEnd
      · exact inItems
  · intro inItems
    obtain ⟨item, member, rfl⟩ := List.mem_map.mp inItems
    rw [height_of_item woven member]
    rfl

theorem heights_perm (woven : Woven nodes level maxLevels items) :
    (heights nodes).Perm (items.map (·.tower.height)) := by
  have stored : ∀ slot, slot ∈ slots items ↔
      slot < nodes.slots.size ∧ (entryHeight nodes slot).isSome = true := by
    intro slot
    rw [entryHeight_isSome woven, iff_and_self]
    intro inItems
    obtain ⟨item, member, rfl⟩ := List.mem_map.mp inItems
    obtain ⟨node, here, -⟩ := Option.map_eq_some_iff.mp (woven.entries item member)
    exact Arena.lt_size_of_get? here
  have read : (slots items).filterMap (entryHeight nodes) = items.map (·.tower.height) := by
    rw [slots, List.filterMap_map, ← List.filterMap_eq_map]
    apply List.filterMap_congr
    intro item member
    exact height_of_item woven member
  rw [← read]
  have distinct := (List.nodup_cons.mp (List.nodup_cons.mp woven.distinct).2).2
  exact Arena.filterMap_range_perm distinct stored

end Heights

section Lists

variable {list : SkipList K V γ} {items : List (Item K V)}

structure Topped (list : SkipList K V γ) : Prop where
  stored : (heights list.nodes).length = list.len
  positive : ∀ height ∈ heights list.nodes, 0 < height
  tallest : list.level = ((heights list.nodes).max?.map (· - 1)).getD 0

theorem topped_of_laid (laid : Laid list items) : Topped list := by
  have woven := laid.woven
  have perm := heights_perm woven
  have mem : ∀ {height}, height ∈ heights list.nodes ↔ ∃ item ∈ items, item.tower.height = height :=
    perm.mem_iff.trans List.mem_map
  refine ⟨?_, ?_, ?_⟩
  · rw [perm.length_eq, List.length_map, laid.len]
  · intro height member
    obtain ⟨item, inside, rfl⟩ := mem.mp member
    exact woven.used item inside
  · cases most : (heights list.nodes).max? with
    | none =>
      rcases laid.top with bottom | ⟨item, inside, -⟩
      · exact bottom
      · have none : heights list.nodes = [] := List.max?_eq_none_iff.mp most
        have member := mem.mpr ⟨item, inside, rfl⟩
        rw [none] at member
        cases member
    | some height =>
      obtain ⟨member, above⟩ := List.max?_eq_some_iff.mp most
      obtain ⟨item, inside, rfl⟩ := mem.mp member
      have below := laid.below item inside
      have used := woven.used item inside
      rw [Option.map_some, Option.getD_some]
      rcases laid.top with bottom | ⟨tallest, present, top⟩
      · omega
      · have := above _ (mem.mpr ⟨tallest, present, rfl⟩)
        omega

end Lists

section Running

structure Climbed (maxLevels : Nat) (kept : Logged K V γ) : Prop where
  climbs : Climbs 0 kept.log kept.list.level
  maxLevels : kept.list.maxLevels = maxLevels

variable {kept : Logged K V γ} {maxLevels : Nat}

theorem climbed_told {events : List Event} {next : SkipList K V γ}
    (climbed : Climbed maxLevels kept) (told : Told kept.list events next) :
    Climbed maxLevels ⟨next, kept.log ++ events⟩ :=
  ⟨climbs_append climbed.climbs told.climbs, told.maxLevels.trans climbed.maxLevels⟩

variable [Ord K] [DrawSource γ]

/-- An operation that keeps a log. Clearing a list begins a new one. -/
def Op.record : Op K V → Logged K V γ → Except Fault (Answer K V × Logged K V γ)
  | .insert key value, kept => do
    let outcome ← kept.list.insert key value
    return (.truth outcome.answer, ⟨outcome.state, kept.log ++ outcome.events⟩)
  | .remove key, kept => do
    let outcome ← kept.list.remove key
    return (.entry outcome.answer, ⟨outcome.state, kept.log ++ outcome.events⟩)
  | .erase key, kept => do
    let outcome ← kept.list.erase key
    return (.truth outcome.answer, ⟨outcome.state, kept.log ++ outcome.events⟩)
  | .extend entries, kept => do
    let outcome ← kept.list.extend entries
    return (.done, ⟨outcome.state, kept.log ++ outcome.events⟩)
  | .clear, kept => return (.done, ⟨kept.list.clear, []⟩)
  | .copy, kept => return (.done, { kept with list := kept.list.copy })
  | .count, kept => return (.count kept.list.len, kept)
  | .toList, kept => do return (.entries (← kept.list.toList), kept)
  | .toListBack, kept => do return (.entries (← kept.list.toListBack), kept)

theorem run_of_record (op : Op K V) (kept : Logged K V γ) :
    op.run kept.list = do
      let (answer, next) ← op.record kept
      return (answer, next.list) := by
  cases op <;> simp only [Op.run, Op.record, bind_assoc, pure_bind]

theorem record_climbed {op : Op K V} {answer : Answer K V} {next : Logged K V γ}
    (climbed : Climbed maxLevels kept) (done : op.record kept = .ok (answer, next)) :
    Climbed maxLevels next := by
  cases op with
  | insert key value =>
    obtain ⟨outcome, first, done⟩ := bind_eq_ok.mp done
    cases done
    exact climbed_told climbed (insert_told first)
  | remove key =>
    obtain ⟨outcome, first, done⟩ := bind_eq_ok.mp done
    cases done
    exact climbed_told climbed (remove_told first)
  | erase key =>
    obtain ⟨outcome, first, done⟩ := bind_eq_ok.mp done
    cases done
    exact climbed_told climbed (erase_told first)
  | extend entries =>
    obtain ⟨outcome, first, done⟩ := bind_eq_ok.mp done
    cases done
    exact climbed_told climbed (extend_told first)
  | clear =>
    cases done
    exact ⟨.still 0, climbed.maxLevels⟩
  | copy =>
    cases done
    exact ⟨climbed.climbs, climbed.maxLevels⟩
  | count =>
    cases done
    exact climbed
  | toList =>
    obtain ⟨entries, -, done⟩ := bind_eq_ok.mp done
    cases done
    exact climbed
  | toListBack =>
    obtain ⟨entries, -, done⟩ := bind_eq_ok.mp done
    cases done
    exact climbed

theorem record_safe (op : Op K V) (n : Nat) (kept : Logged K V γ)
    (sound : Holds n kept.list ∧ Climbed maxLevels kept) : Safe (Scarce (n + op.insertions))
      (fun result => Holds (n + op.insertions) result.2.list ∧ Climbed maxLevels result.2)
      (op.record kept) := by
  have safe := op_safe sound.1 op
  rw [run_of_record] at safe
  apply safe_imp (safe_done (safe_of_bind safe)) id
  rintro ⟨answer, next⟩ ⟨done, holds⟩
  exact ⟨holds, record_climbed sound.2 done⟩

/-- With any accepted settings, any draws and any comparison of keys. A run only ends early when the
store is out of slots, after as many insertions as it has room for. -/
theorem levels_tracked {config : Config} (valid : config.Valid) (draws : γ)
    (ops : List (Op K V)) :
    (∃ answers kept, runAll Op.record ops (Logged.begin config draws) = .ok (answers, kept) ∧
      Topped kept.list ∧ kept.list.level < config.maxLevels ∧
      Climbs 0 kept.log kept.list.level) ∨
    (runAll Op.record ops (Logged.begin config draws) = .error .exhausted ∧
      Arena.maxSlots < (ops.map Op.insertions).sum + 2) := by
  have start : Holds 0 (Logged.begin config draws : Logged K V γ).list ∧
      Climbed config.maxLevels (Logged.begin config draws : Logged K V γ) :=
    ⟨⟨[], build_laid valid draws, Nat.le_refl 0⟩, .still 0, rfl⟩
  have safe := runAll_safe scarce_later record_safe ops start
  rw [Nat.zero_add] at safe
  rcases safe_cases safe with ⟨⟨answers, kept⟩, done, ⟨items, laid, -⟩, climbed⟩ | failed
  · refine Or.inl ⟨answers, kept, done, topped_of_laid laid, ?_, climbed.climbs⟩
    rw [← climbed.maxLevels]
    exact laid.room
  · exact Or.inr failed

/-- The towers of the key 5 are 2 and 3 nodes high, the one of 3 has a single node. -/
def climbing : List (Op Nat Nat) :=
  [.insert 5 50, .extend [(3, 30), (5, 51)], .remove 5, .remove 5, .insert 1 10]

theorem levels_tracked_words : ∃ answers, ∃ kept : Logged Nat Nat Xoshiro,
    runAll Op.record climbing (Logged.begin {} (Xoshiro.ofSeed 118)) = .ok (answers, kept) ∧
      kept.log = [.raised 0 1, .raised 1 2, .lowered 2 0] ∧ Topped kept.list ∧
      kept.list.level < levelLimit ∧ Climbs 0 kept.log kept.list.level := by
  have outline : (runAll Op.record climbing (Logged.begin {} (Xoshiro.ofSeed 118))).map
      (·.2.log) = .ok [.raised 0 1, .raised 1 2, .lowered 2 0] := by decide +kernel
  rcases levels_tracked Config.default_valid (Xoshiro.ofSeed 118) climbing with
    ⟨answers, kept, done, tracked⟩ | ⟨-, many⟩
  · rw [done] at outline
    exact ⟨answers, kept, done, Except.ok.inj outline, tracked⟩
  · exact absurd many (by decide)

end Running

end MemIndex.SkipList
