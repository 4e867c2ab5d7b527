import MemIndex.Proofs.ChainMap.Agreement

/- A chained map is a dictionary. Whatever the settings, the hash function and the moment at which
   a resize is interrupted, every answer is the one that the dictionary gives. -/
namespace MemIndex.ChainMap

variable {K V : Type} [BEq K] {hash : K → UInt64} {map : ChainMap K V} {dict : Dictionary K V}

def Mirrors (hash : K → UInt64) (map : ChainMap K V) (dict : Dictionary K V) : Prop :=
  ∃ p : Plain K V, Depicts map p ∧ p.Carries hash dict

theorem len_mirrors (mirrors : Mirrors hash map dict) : map.len = dict.length := by
  obtain ⟨p, depicts, carries⟩ := mirrors
  rw [len_depicts depicts, carries.perm.length_eq]

theorem build_mirrors {config : Config} (valid : config.Valid) (hash : K → UInt64) :
    Mirrors hash (build config hash : ChainMap K V) [] :=
  ⟨_, build_depicts valid hash, Plain.carries_blank valid hash⟩

variable [EquivBEq K] (respects : Respects hash)

include respects

theorem peek_mirrors (mirrors : Mirrors hash map dict) (key : K) :
    map.peek key = .ok ((dict.lookup key).map (·.2)) := by
  obtain ⟨p, depicts, carries⟩ := mirrors
  rw [peek_depicts depicts, Plain.find?_carried respects carries]

theorem getEntry_mirrors (mirrors : Mirrors hash map dict) (key : K) :
    ∃ outcome, map.getEntry key = .ok outcome ∧
      outcome.answer = required (dict.lookup key) ∧ Mirrors hash outcome.state dict := by
  obtain ⟨p, depicts, carries⟩ := mirrors
  obtain ⟨outcome, done, answer, -, after⟩ := getEntry_depicts depicts key
  have upkept := Plain.carries_upkeep carries
  rw [Plain.find?_carried respects upkept] at answer
  exact ⟨outcome, done, answer, p.upkeep.1, after, upkept⟩

theorem op_agrees (mirrors : Mirrors hash map dict) (op : Op K V) :
    Matching (fun expected actual => expected.1.Agrees actual.1 ∧
      Mirrors hash actual.2 expected.2) (op.meaning dict) (op.run map) := by
  obtain ⟨p, depicts, carries⟩ := mirrors
  apply matching_imp
    (matching_trans (Plain.plainly_agrees respects carries op) (op_alike depicts op))
  rintro expected actual ⟨⟨answer, between⟩, ⟨agrees, carried⟩, same, after⟩
  cases same
  exact ⟨agrees, between, after, carried⟩

theorem op_mirrors (mirrors : Mirrors hash map dict) {op : Op K V} {answer : Answer K V}
    {next : ChainMap K V} (ran : op.run map = .ok (answer, next)) :
    ∃ after, Mirrors hash next after := by
  have agree := op_agrees respects mirrors op
  rw [ran] at agree
  obtain ⟨pair, -, -, after⟩ := matching_ok_right agree
  exact ⟨pair.2, after⟩

theorem ops_agree (mirrors : Mirrors hash map dict) (ops : List (Op K V)) :
    Matching (fun expected actual => List.Forall₂ Answer.Agrees expected.1 actual.1 ∧
        Mirrors hash actual.2 expected.2)
      (runAll Op.meaning ops dict) (runAll Op.run ops map) := by
  apply @runAll_matching _ _ _ _ _ Answer.Agrees fun dict map => Mirrors hash map dict
  · intro op dict map mirrors
    exact op_agrees respects mirrors op
  · exact mirrors

structure Follows (expected : List (Answer K V) × Dictionary K V)
    (actual : List (Answer K V) × ChainMap K V) : Prop where
  answers : List.Forall₂ Answer.Agrees expected.1 actual.1
  len : actual.2.len = expected.2.length
  peeked : ∀ key, actual.2.peek key = .ok ((expected.2.lookup key).map (·.2))
  looked : ∀ key, ∃ outcome, actual.2.getEntry key = .ok outcome ∧
    outcome.answer = required (expected.2.lookup key)

/-- From an empty map with any accepted settings, all operations answer as a dictionary does. Both
run out of room together. -/
theorem operations_follow_dictionary {config : Config} (valid : config.Valid)
    (ops : List (Op K V)) :
    ∃ map : ChainMap K V, ofConfig config hash = .ok map ∧
      Matching Follows (runAll Op.meaning ops []) (runAll Op.run ops map) := by
  refine ⟨build config hash, ofConfig_valid valid hash, ?_⟩
  apply matching_imp (ops_agree respects (build_mirrors valid hash) ops)
  rintro expected actual ⟨answers, mirrors⟩
  refine ⟨answers, len_mirrors mirrors, peek_mirrors respects mirrors, fun key => ?_⟩
  obtain ⟨outcome, done, answer, -⟩ := getEntry_mirrors respects mirrors key
  exact ⟨outcome, done, answer⟩

omit respects in
theorem operations_follow_dictionary_words :
    ∃ map : ChainMap UInt64 Nat, ofConfig { pace := .fixed 1 } id = .ok map ∧
      (runAll Op.run crossing map).map (·.2.cursor?) = .ok (some 3) ∧
      Matching Follows (runAll Op.meaning crossing []) (runAll Op.run crossing map) := by
  obtain ⟨map, made, follows⟩ := operations_follow_dictionary
    (fun a b same => by rw [eq_of_beq same]) Config.single_valid crossing
  obtain ⟨-, rfl⟩ := made_of_ofConfig made
  exact ⟨_, made, by decide +kernel, follows⟩

theorem reachable_mirrors (reachable : Reachable hash map) :
    ∃ dict, Mirrors hash map dict := by
  induction reachable with
  | @made config map built =>
    obtain ⟨valid, rfl⟩ := made_of_ofConfig built
    exact ⟨[], build_mirrors valid hash⟩
  | @step map next op answer before ran ih =>
    obtain ⟨dict, mirrors⟩ := ih
    exact op_mirrors respects mirrors ran

end MemIndex.ChainMap
