import MemIndex.Proofs.ChainMap.Contents
import MemIndex.Proofs.ChainMap.Dictionaries

/- When two maps are equal. The comparison counts and looks one way only; since no two stored keys
   are equal, nothing can be left over on the other side. -/
namespace MemIndex.ChainMap

variable {K V : Type} [BEq K]

def Has (pairs : List (K × V)) (key : K) (value : V) : Prop :=
  ∃ pair ∈ pairs, (pair.1 == key) = true ∧ pair.2 = value

structure SamePairs [BEq V] (pairs others : List (K × V)) : Prop where
  keys : ∀ key, (∃ value, Has pairs key value) ↔ ∃ value, Has others key value
  values : ∀ key value other, Has pairs key value → Has others key other → (other == value) = true

section Counting

variable [EquivBEq K] {pairs others : List (K × V)}

theorem has_iff_find? (distinct : Distinct pairs) {key : K} {value : V} :
    Has pairs key value ↔ (pairs.find? (·.1 == key)).map (·.2) = some value := by
  rw [Option.map_eq_some_iff]
  constructor
  · rintro ⟨pair, member, matched, rfl⟩
    exact ⟨pair, (find?_iff_mem distinct).mpr ⟨member, matched⟩, rfl⟩
  · rintro ⟨pair, found, rfl⟩
    obtain ⟨member, matched⟩ := (find?_iff_mem distinct).mp found
    exact ⟨pair, member, matched, rfl⟩

theorem partners_of_covered (distinct : Distinct pairs)
    (covered : ∀ pair ∈ pairs, ∃ other ∈ others, (other.1 == pair.1) = true) :
    ∃ partners left, others.Perm (partners ++ left) ∧
      List.Forall₂ (fun pair other => (other.1 == pair.1) = true) pairs partners := by
  induction pairs generalizing others with
  | nil => exact ⟨[], others, List.Perm.refl _, List.Forall₂.nil⟩
  | cons pair rest ih =>
    obtain ⟨apart, distinct⟩ := List.pairwise_cons.mp distinct
    obtain ⟨other, member, matched⟩ := covered pair List.mem_cons_self
    obtain ⟨before, after, rfl⟩ := List.append_of_mem member
    have moved : (before ++ other :: after).Perm (other :: (before ++ after)) := List.perm_middle
    -- The partner of the first pair is nobody else's, so the rest is covered without it.
    obtain ⟨partners, left, perm, each⟩ := @ih (before ++ after) distinct fun later inRest => by
      obtain ⟨mate, inOthers, same⟩ := covered later (List.mem_cons_of_mem _ inRest)
      rcases List.mem_cons.mp (moved.mem_iff.mp inOthers) with rfl | elsewhere
      · have equal := BEq.trans (BEq.symm matched) same
        rw [apart later inRest] at equal
        cases equal
      · exact ⟨mate, elsewhere, same⟩
    exact ⟨other :: partners, left, moved.trans (perm.cons other), List.Forall₂.cons matched each⟩

theorem length_le_of_covered (distinct : Distinct pairs)
    (covered : ∀ pair ∈ pairs, ∃ other ∈ others, (other.1 == pair.1) = true) :
    pairs.length ≤ others.length := by
  obtain ⟨partners, left, perm, each⟩ := partners_of_covered distinct covered
  rw [perm.length_eq, List.length_append, each.length_eq]
  exact Nat.le_add_right _ _

theorem covered_back (distinct : Distinct pairs)
    (covered : ∀ pair ∈ pairs, ∃ other ∈ others, (other.1 == pair.1) = true)
    (length : pairs.length = others.length) :
    ∀ other ∈ others, ∃ pair ∈ pairs, (other.1 == pair.1) = true := by
  obtain ⟨partners, left, perm, each⟩ := partners_of_covered distinct covered
  have count := perm.length_eq
  rw [List.length_append, ← length, each.length_eq] at count
  have none : left = [] := List.eq_nil_of_length_eq_zero (by omega)
  rw [none, List.append_nil] at perm
  intro other member
  obtain ⟨i, inside, rfl⟩ := List.mem_iff_getElem.mp (perm.mem_iff.mp member)
  have within : i < pairs.length := each.length_eq ▸ inside
  exact ⟨pairs[i], List.getElem_mem within, each.get within inside⟩

end Counting

section Verdict

variable [BEq V]

def sameBy (pairs others : List (K × V)) : Bool :=
  pairs.length == others.length &&
    pairs.all fun pair => (others.find? (·.1 == pair.1)).map (·.2) == some pair.2

variable [EquivBEq K] {pairs others : List (K × V)}

theorem sameBy_iff (distinct : Distinct pairs) (apart : Distinct others) :
    sameBy pairs others = true ↔ SamePairs pairs others := by
  simp only [sameBy, Bool.and_eq_true, beq_iff_eq, List.all_eq_true]
  constructor
  · rintro ⟨length, found⟩
    have partner : ∀ pair ∈ pairs, ∃ value, Has others pair.1 value ∧ (value == pair.2) = true := by
      intro pair member
      have here := found pair member
      cases held : (others.find? (·.1 == pair.1)).map (·.2) with
      | none => simp [held] at here
      | some value =>
        rw [held] at here
        exact ⟨value, (has_iff_find? apart).mpr held, by simpa using here⟩
    have covered : ∀ pair ∈ pairs, ∃ other ∈ others, (other.1 == pair.1) = true := by
      intro pair member
      obtain ⟨_, ⟨other, inOthers, matched, -⟩, -⟩ := partner pair member
      exact ⟨other, inOthers, matched⟩
    refine ⟨fun key => ⟨?_, ?_⟩, ?_⟩
    · rintro ⟨_, pair, member, matched, rfl⟩
      obtain ⟨other, inOthers, same⟩ := covered pair member
      exact ⟨other.2, other, inOthers, BEq.trans same matched, rfl⟩
    · rintro ⟨_, other, member, matched, rfl⟩
      obtain ⟨pair, inPairs, same⟩ := covered_back distinct covered length other member
      exact ⟨pair.2, pair, inPairs, BEq.trans (BEq.symm same) matched, rfl⟩
    · rintro key _ value ⟨pair, member, matched, rfl⟩ ⟨other, inOthers, same, rfl⟩
      obtain ⟨value, has, equal⟩ := partner pair member
      have held := (has_iff_find? apart).mp has
      have here : others.find? (·.1 == pair.1) = some other :=
        (find?_iff_mem apart).mpr ⟨inOthers, BEq.trans same (BEq.symm matched)⟩
      rw [here] at held
      cases held
      exact equal
  · intro same
    have covered : ∀ pair ∈ pairs, ∃ other ∈ others, (other.1 == pair.1) = true := by
      intro pair member
      obtain ⟨_, other, inOthers, matched, -⟩ :=
        (same.keys pair.1).mp ⟨pair.2, pair, member, BEq.rfl, rfl⟩
      exact ⟨other, inOthers, matched⟩
    have back : ∀ other ∈ others, ∃ pair ∈ pairs, (pair.1 == other.1) = true := by
      intro other member
      obtain ⟨_, pair, inPairs, matched, -⟩ :=
        (same.keys other.1).mpr ⟨other.2, other, member, BEq.rfl, rfl⟩
      exact ⟨pair, inPairs, matched⟩
    refine ⟨Nat.le_antisymm (length_le_of_covered distinct covered)
      (length_le_of_covered apart back), fun pair member => ?_⟩
    obtain ⟨other, inOthers, matched⟩ := covered pair member
    have found : others.find? (·.1 == pair.1) = some other :=
      (find?_iff_mem apart).mpr ⟨inOthers, matched⟩
    have equal := same.values pair.1 pair.2 other.2 ⟨pair, member, BEq.rfl, rfl⟩
      ⟨other, inOthers, matched, rfl⟩
    simpa [found] using equal

end Verdict

structure Tells (map : ChainMap K V) : Prop where
  distinct : Distinct map.store.pairs
  len : map.len = map.store.pairs.length
  listed : ∃ all, map.listing = .ok all ∧ all.Perm map.store.pairs
  peeked : ∀ key, map.peek key = .ok ((map.store.pairs.find? (·.1 == key)).map (·.2))

section Maps

variable {hash : K → UInt64} {map next : ChainMap K V} {dict : Dictionary K V}

theorem mirrors_pairs (mirrors : Mirrors hash map dict) : map.store.pairs.Perm dict := by
  obtain ⟨p, depicts, carries⟩ := mirrors
  exact (entries_stored depicts.represents).symm.trans carries.perm

variable [EquivBEq K]

theorem tells_of_mirrors (respects : Respects hash) (mirrors : Mirrors hash map dict) :
    Tells map := by
  have perm := mirrors_pairs mirrors
  have len := len_mirrors mirrors
  have peeked := peek_mirrors respects mirrors
  obtain ⟨p, depicts, carries⟩ := mirrors
  have stored := entries_stored depicts.represents
  have distinct := (distinct_perm stored).mp carries.sound.distinct
  refine ⟨distinct, len.trans perm.length_eq.symm,
    ⟨p.entries, listing_refines depicts.represents, stored⟩, fun key => ?_⟩
  rw [peeked key, find?_perm distinct perm]
  rfl

omit [EquivBEq K] in
theorem agrees_tells [BEq V] {a b : ChainMap K V} (first : Tells a) (second : Tells b) :
    a.agrees b = .ok (sameBy a.store.pairs b.store.pairs) := by
  obtain ⟨all, listed, perm⟩ := first.listed
  have looked : ∀ pair ∈ all, (do return (← b.peek pair.1) == some pair.2 : Except Fault Bool) =
      .ok ((b.store.pairs.find? (·.1 == pair.1)).map (·.2) == some pair.2) := by
    intro pair _
    rw [second.peeked]
    rfl
  simp only [agrees, first.len, second.len, sameBy]
  by_cases length : a.store.pairs.length = b.store.pairs.length
  · have found := allM_ok looked
    rw [perm.all_eq] at found
    simp only [length, bne_self_eq_false, Bool.false_eq_true, if_false, beq_self_eq_true,
      Bool.true_and, listed, ok_bind]
    exact found
  · simp [length]

def Op.changes : Op K V → Bool
  | .insert _ _ | .replace _ _ | .remove _ | .erase _ | .extend _ | .ofList _ | .clear => true
  | _ => false

omit [EquivBEq K] in
theorem meaning_steady {op : Op K V} (steady : op.changes = false) (dict : Dictionary K V) :
    ∃ answer, op.meaning dict = .ok (answer, dict) := by
  cases op with
  | insert | replace | remove | erase | extend | ofList | clear => cases steady
  | _ => exact ⟨_, rfl⟩

omit [EquivBEq K] in
theorem meanings_steady {ops : List (Op K V)} (steady : ∀ op ∈ ops, op.changes = false)
    (dict : Dictionary K V) : ∃ answers, runAll Op.meaning ops dict = .ok (answers, dict) := by
  induction ops with
  | nil => exact ⟨[], rfl⟩
  | cons op rest ih =>
    obtain ⟨answer, same⟩ := meaning_steady (steady op List.mem_cons_self) dict
    obtain ⟨answers, others⟩ := ih fun other member => steady other (List.mem_cons_of_mem _ member)
    exact ⟨answer :: answers, by simp [runAll, same, others]⟩

theorem steady_mirrors (respects : Respects hash) (mirrors : Mirrors hash map dict)
    {ops : List (Op K V)} (steady : ∀ op ∈ ops, op.changes = false) {answers : List (Answer K V)}
    (ran : runAll Op.run ops map = .ok (answers, next)) : Mirrors hash next dict := by
  obtain ⟨expected, still⟩ := meanings_steady steady dict
  have agree := ops_agree respects mirrors ops
  rw [still, ran] at agree
  exact agree.2

end Maps

section Equality

variable [BEq V]

def Reached (map : ChainMap K V) : Prop := ∃ hash, Respects hash ∧ Reachable hash map

/-- The comparison of maps, each with its own history, hash function and moment of a resize. -/
structure EqualityOfMaps (K V : Type) [BEq K] [BEq V] : Prop where
  decides : ∀ a b : ChainMap K V, Reached a → Reached b →
    ∃ verdict, a.agrees b = .ok verdict ∧
      (verdict = true ↔ SamePairs a.store.pairs b.store.pairs)
  symmetric : ∀ a b : ChainMap K V, PartialEquivBEq V → Reached a → Reached b →
    a.agrees b = b.agrees a
  transitive : ∀ a b c : ChainMap K V, PartialEquivBEq V → Reached a → Reached b → Reached c →
    a.agrees b = .ok true → b.agrees c = .ok true → a.agrees c = .ok true
  blind : ∀ a other b : ChainMap K V, Reached a → Reached other → Reached b →
    (∀ key value, Has a.store.pairs key value ↔ Has other.store.pairs key value) →
    a.agrees b = other.agrees b ∧ b.agrees a = b.agrees other
  /-- Two maps that one map became while it was only read and resized. A value need not be equal to
  itself. -/
  steady : ∀ (map a b : ChainMap K V) (ops others : List (Op K V)) (answers replies),
    Reached map → (∀ op ∈ ops ++ others, op.changes = false) →
    runAll Op.run ops map = .ok (answers, a) → runAll Op.run others map = .ok (replies, b) →
    a.agrees b = .ok (map.store.pairs.all fun pair => pair.2 == pair.2) ∧
      (ReflBEq V → a.agrees b = .ok true)

variable [EquivBEq K]

omit [BEq V] in
theorem tells_of_reached {map : ChainMap K V} (reached : Reached map) : Tells map := by
  obtain ⟨hash, respects, reachable⟩ := reached
  obtain ⟨dict, mirrors⟩ := reachable_mirrors respects reachable
  exact tells_of_mirrors respects mirrors

theorem agrees_eq_true {a b : ChainMap K V} (first : Tells a) (second : Tells b) :
    a.agrees b = .ok true ↔ SamePairs a.store.pairs b.store.pairs := by
  rw [agrees_tells first second, Except.ok.injEq, sameBy_iff first.distinct second.distinct]

theorem agrees_congr {a b c d : ChainMap K V} (first : Tells a) (second : Tells b) (third : Tells c)
    (fourth : Tells d)
    (same : SamePairs a.store.pairs b.store.pairs ↔ SamePairs c.store.pairs d.store.pairs) :
    a.agrees b = c.agrees d := by
  rw [agrees_tells first second, agrees_tells third fourth]
  rw [← sameBy_iff first.distinct second.distinct, ← sameBy_iff third.distinct fourth.distinct,
    ← Bool.eq_iff_iff] at same
  rw [same]

omit [EquivBEq K] in
theorem samePairs_symm [PartialEquivBEq V] {pairs others : List (K × V)}
    (same : SamePairs pairs others) : SamePairs others pairs :=
  ⟨fun key => (same.keys key).symm, fun key value other here there =>
    BEq.symm (same.values key other value there here)⟩

omit [EquivBEq K] in
theorem samePairs_trans [PartialEquivBEq V] {pairs others more : List (K × V)}
    (first : SamePairs pairs others) (second : SamePairs others more) : SamePairs pairs more := by
  refine ⟨fun key => (first.keys key).trans (second.keys key), fun key value other here there => ?_⟩
  obtain ⟨between, middle⟩ := (first.keys key).mp ⟨value, here⟩
  exact BEq.trans (second.values key between other middle there)
    (first.values key value between here middle)

omit [EquivBEq K] in
theorem samePairs_congr {pairs others replaced renewed : List (K × V)}
    (left : ∀ key value, Has pairs key value ↔ Has replaced key value)
    (right : ∀ key value, Has others key value ↔ Has renewed key value) :
    SamePairs pairs others ↔ SamePairs replaced renewed := by
  constructor
  · rintro ⟨keys, values⟩
    simp only [left, right] at keys values
    exact ⟨keys, values⟩
  · rintro ⟨keys, values⟩
    simp only [← left, ← right] at keys values
    exact ⟨keys, values⟩

theorem sameBy_perm {pairs others : List (K × V)} (distinct : Distinct pairs)
    (perm : pairs.Perm others) :
    sameBy pairs others = pairs.all fun pair => pair.2 == pair.2 := by
  have found : ∀ pair ∈ pairs, (others.find? (·.1 == pair.1)).map (·.2) = some pair.2 := by
    intro pair member
    rw [← find?_perm distinct perm, (find?_iff_mem distinct).mpr ⟨member, BEq.rfl⟩]
    rfl
  rw [sameBy, perm.length_eq, beq_self_eq_true, Bool.true_and, Bool.eq_iff_iff, List.all_eq_true,
    List.all_eq_true]
  exact forall₂_congr fun pair member => by rw [found pair member, Option.some_beq_some]

/-- Equal keys with equal values on both sides make two maps equal, and nothing else does. -/
theorem agrees_is_equality : EqualityOfMaps K V := by
  constructor
  · intro a b first second
    have distinct := (tells_of_reached first).distinct
    exact ⟨_, agrees_tells (tells_of_reached first) (tells_of_reached second),
      sameBy_iff distinct (tells_of_reached second).distinct⟩
  · intro a b _ first second
    exact agrees_congr (tells_of_reached first) (tells_of_reached second) (tells_of_reached second)
      (tells_of_reached first) ⟨samePairs_symm, samePairs_symm⟩
  · intro a b c _ first second third same also
    rw [agrees_eq_true (tells_of_reached first) (tells_of_reached second)] at same
    rw [agrees_eq_true (tells_of_reached second) (tells_of_reached third)] at also
    rw [agrees_eq_true (tells_of_reached first) (tells_of_reached third)]
    exact samePairs_trans same also
  · intro a other b first second third alike
    exact ⟨agrees_congr (tells_of_reached first) (tells_of_reached third) (tells_of_reached second)
        (tells_of_reached third) (samePairs_congr alike fun _ _ => Iff.rfl),
      agrees_congr (tells_of_reached third) (tells_of_reached first) (tells_of_reached third)
        (tells_of_reached second) (samePairs_congr (fun _ _ => Iff.rfl) alike)⟩
  · intro map a b ops others answers replies reached steady ran also
    obtain ⟨hash, respects, reachable⟩ := reached
    obtain ⟨dict, mirrors⟩ := reachable_mirrors respects reachable
    have first := steady_mirrors respects mirrors
      (fun op member => steady op (List.mem_append_left _ member)) ran
    have second := steady_mirrors respects mirrors
      (fun op member => steady op (List.mem_append_right _ member)) also
    have distinct := (tells_of_mirrors respects first).distinct
    have perm := (mirrors_pairs first).trans (mirrors_pairs second).symm
    have back := (mirrors_pairs first).trans (mirrors_pairs mirrors).symm
    have verdict : a.agrees b = .ok (map.store.pairs.all fun pair => pair.2 == pair.2) := by
      rw [agrees_tells (tells_of_mirrors respects first) (tells_of_mirrors respects second),
        sameBy_perm distinct perm, back.all_eq]
    refine ⟨verdict, fun _ => ?_⟩
    rw [verdict, List.all_eq_true.mpr fun pair _ => BEq.rfl]

theorem agrees_is_equality_words :
    ∃ (a b c : ChainMap UInt64 Nat) (answers : List (Answer UInt64 Nat)),
      Op.run (.extend [(1, 10), (2, 20), (3, 30), (4, 40), (5, 50), (6, 60)]) (build {} id) =
          .ok (.done, a) ∧
        Op.run (.extend [(6, 60), (5, 50), (4, 40), (3, 30), (2, 20), (1, 10)])
            (build { pace := .fixed 1 } (· + 3)) = .ok (.done, b) ∧
        runAll Op.run [.settle] a = .ok (answers, c) ∧
        a.isResizing = true ∧ b.isResizing = true ∧ c.isResizing = false ∧
        a.agrees b = .ok true ∧ SamePairs a.store.pairs b.store.pairs ∧ a.agrees c = .ok true := by
  have grown : ∃ (a b c : ChainMap UInt64 Nat) (answers : List (Answer UInt64 Nat)),
      Op.run (.extend [(1, 10), (2, 20), (3, 30), (4, 40), (5, 50), (6, 60)]) (build {} id) =
          .ok (.done, a) ∧
        Op.run (.extend [(6, 60), (5, 50), (4, 40), (3, 30), (2, 20), (1, 10)])
            (build { pace := .fixed 1 } (· + 3)) = .ok (.done, b) ∧
        runAll Op.run [.settle] a = .ok (answers, c) ∧
        a.isResizing = true ∧ b.isResizing = true ∧ c.isResizing = false ∧
        a.agrees b = .ok true :=
    ⟨_, _, _, _, rfl, rfl, rfl, rfl, rfl, rfl, by decide +kernel⟩
  obtain ⟨a, b, c, answers, ran, also, settled, resizing, midway, stable, equal⟩ := grown
  have first : Reached a := ⟨id, fun x y same => congrArg id (eq_of_beq same),
    (build_reachable Config.default_valid id).step ran⟩
  have second : Reached b := ⟨(· + 3), fun x y same => congrArg (· + 3) (eq_of_beq same),
    (build_reachable Config.single_valid _).step also⟩
  obtain ⟨verdict, done, decided⟩ := agrees_is_equality.decides a b first second
  rw [equal] at done
  obtain ⟨-, reflexive⟩ := agrees_is_equality.steady a a c [] [.settle] [] answers first (by decide)
    rfl settled
  exact ⟨a, b, c, answers, ran, also, settled, resizing, midway, stable, equal,
    decided.mp (Except.ok.inj done).symm, reflexive inferInstance⟩

end Equality

end MemIndex.ChainMap
