import MemIndex.Proofs.SkipList.Laid

/- Lists without entries, and second lists. -/
namespace MemIndex.SkipList

variable {K V γ : Type}

theorem maxLevels_pos {config : Config} (valid : config.Valid) : 0 < config.maxLevels := by
  by_contra none
  have refused : config.validate = .error (.maxLevels config.maxLevels) := by
    rw [Config.validate, if_pos (Or.inl (Nat.eq_zero_of_not_pos none))]
  rw [Config.Valid, refused] at valid
  cases valid

theorem maxLevels_le {config : Config} (valid : config.Valid) : config.maxLevels ≤ levelLimit := by
  by_contra more
  have refused : config.validate = .error (.maxLevels config.maxLevels) := by
    rw [Config.validate, if_pos (Or.inr (Nat.lt_of_not_le more))]
  rw [Config.Valid, refused] at valid
  cases valid

theorem Config.default_valid : ({} : Config).Valid := rfl

section Ends

variable (maxLevels : Nat)

theorem ends_view (slot : Nat) : (ends maxLevels : Arena (Node K V)).get? slot =
    if slot = head then some ⟨none, Array.replicate maxLevels ⟨tail, 0⟩, head⟩
    else if slot = tail then some ⟨none, #[], head⟩ else none := by
  match slot with
  | 0 => rfl
  | 1 => rfl
  | slot + 2 => simp [ends, Arena.append, Arena.empty, Arena.withCapacity, Arena.get?, head, tail]

theorem ends_sound : (ends maxLevels : Arena (Node K V)).Sound := by
  have few : 2 ≤ Arena.maxSlots := by decide
  refine ⟨[], rfl, List.nodup_nil, ?_, rfl, few⟩
  intro slot
  match slot with
  | 0 => simp [ends, Arena.append, Arena.empty, Arena.withCapacity]
  | 1 => simp [ends, Arena.append, Arena.empty, Arena.withCapacity]
  | slot + 2 => simp [ends, Arena.append, Arena.empty, Arena.withCapacity]

theorem ends_woven {maxLevels : Nat} (levels : 0 < maxLevels) :
    Woven (ends maxLevels : Arena (Node K V)) 0 maxLevels [] := by
  have atHead := @ends_view K V maxLevels head
  have atTail := @ends_view K V maxLevels tail
  rw [if_pos rfl] at atHead
  rw [if_neg (by decide), if_pos rfl] at atTail
  constructor
  · exact ends_sound maxLevels
  · rfl
  · intro slot
    unfold heightOf
    rw [ends_view]
    by_cases first : slot = head
    · simp [first]
    · rw [if_neg first]
      by_cases last : slot = tail
      · simp [last]
      · simp [first, last, slots]
  · exact List.nodup_cons.mpr ⟨by simp [slots, head, tail], List.nodup_singleton tail⟩
  · apply linked_row.mpr
    constructor
    · intro l low
      obtain rfl : l = 0 := Nat.le_zero.mp low
      have link : linkOf (ends maxLevels : Arena (Node K V)) head 0 = some ⟨tail, 0⟩ := by
        simp [linkOf, atHead, levels]
      exact link
    · intro pre t post none
      simp [towers] at none
  · simp [Backed, slots, previousOf, atTail]
  · simp [heightOf, atHead]
  · simp [entryOf, atHead, atTail]
  · intro item member
    cases member
  · intro item member
    cases member
  · intro item member
    cases member

end Ends

theorem build_laid {config : Config} (valid : config.Valid) (draws : γ) :
    Laid (build config draws : SkipList K V γ) [] := by
  have levels := maxLevels_pos valid
  refine ⟨ends_woven levels, rfl, ?_, Or.inl rfl, levels, maxLevels_le valid⟩
  intro item member
  cases member

theorem clear_laid {list : SkipList K V γ} {items : List (Item K V)} (laid : Laid list items) :
    Laid list.clear [] := by
  have levels := Nat.zero_lt_of_lt laid.room
  refine ⟨ends_woven levels, rfl, ?_, Or.inl rfl, levels, laid.limit⟩
  intro item member
  cases member

theorem copy_laid {list : SkipList K V γ} {items : List (Item K V)} (laid : Laid list items) :
    Laid list.copy items := by
  have woven := laid.woven
  refine ⟨?_, laid.len, laid.below, laid.top, laid.room, laid.limit⟩
  exact ⟨Arena.copy_sound woven.sound, woven.size, woven.occupied, woven.distinct, woven.linked,
    woven.backed, woven.headHeight, woven.ends, woven.entries, woven.heights, woven.used⟩

end MemIndex.SkipList
