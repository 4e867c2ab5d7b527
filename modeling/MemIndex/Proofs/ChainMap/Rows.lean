import Mathlib.Data.List.Perm.Basic
import MemIndex.ChainMap.Table

/- Tables as lists of lists, one for each bucket: where an element is filed, and what filing,
   taking out and pouring into another table do to the elements as a whole. -/
namespace MemIndex.ChainMap

open scoped List

variable {α : Type}

def bucketOf (buckets : Nat) (hash : UInt64) : Nat := hash.toNat &&& (buckets - 1)

theorem bucketOf_lt {buckets : Nat} (positive : 0 < buckets) (hash : UInt64) :
    bucketOf buckets hash < buckets := by
  have : bucketOf buckets hash ≤ buckets - 1 := Nat.and_le_right
  omega

abbrev Rows (α : Type) := List (List α)

namespace Rows

def row (rows : Rows α) (bucket : Nat) : List α := rows[bucket]?.getD []

def put (rows : Rows α) (hash : UInt64) (x : α) : Rows α :=
  rows.set (bucketOf rows.length hash) (x :: rows.row (bucketOf rows.length hash))

def discard (rows : Rows α) (hash : UInt64) (p : α → Bool) : Rows α :=
  rows.set (bucketOf rows.length hash) ((rows.row (bucketOf rows.length hash)).eraseP p)

def changeFirst (p : α → Bool) (change : α → α) (xs : List α) : List α :=
  xs.modify (xs.findIdx p) change

def revise (rows : Rows α) (hash : UInt64) (p : α → Bool) (change : α → α) : Rows α :=
  rows.set (bucketOf rows.length hash)
    (changeFirst p change (rows.row (bucketOf rows.length hash)))

def pour (hashOf : α → UInt64) (rows : Rows α) (xs : List α) : Rows α :=
  xs.foldl (fun rows x => rows.put (hashOf x) x) rows

def shift (hashOf : α → UInt64) (tables : Rows α × Rows α) (bucket : Nat) : Rows α × Rows α :=
  (tables.1.set bucket [], pour hashOf tables.2 (tables.1.row bucket))

def Filed (hashOf : α → UInt64) (rows : Rows α) : Prop :=
  ∀ bucket, ∀ x ∈ rows.row bucket, bucketOf rows.length (hashOf x) = bucket

variable {hashOf : α → UInt64} {rows : Rows α} {bucket : Nat}

theorem row_of_getElem? {xs : List α} (here : rows[bucket]? = some xs) : rows.row bucket = xs := by
  simp [row, here]

theorem getElem?_of_lt (inside : bucket < rows.length) :
    rows[bucket]? = some (rows.row bucket) := by
  simp [row, inside]

theorem row_of_length_le (beyond : rows.length ≤ bucket) : rows.row bucket = [] := by
  simp [row, List.getElem?_eq_none beyond]

theorem row_set (new : List α) (other : Nat) :
    row (rows.set bucket new) other =
      if bucket = other ∧ bucket < rows.length then new else rows.row other := by
  by_cases same : bucket = other
  · subst other
    by_cases inside : bucket < rows.length
    · simp [row, inside]
    · simp [row, inside]
  · simp [row, same]

theorem mem_flatten_iff {x : α} : x ∈ rows.flatten ↔ ∃ bucket, x ∈ rows.row bucket := by
  constructor
  · intro member
    obtain ⟨xs, inRows, inRow⟩ := List.mem_flatten.mp member
    obtain ⟨bucket, here⟩ := List.mem_iff_getElem?.mp inRows
    exact ⟨bucket, by rwa [row_of_getElem? here]⟩
  · rintro ⟨bucket, member⟩
    by_cases inside : bucket < rows.length
    · exact List.mem_flatten.mpr ⟨_, List.mem_of_getElem? (getElem?_of_lt inside), member⟩
    · rw [row_of_length_le (Nat.le_of_not_lt inside)] at member
      cases member

theorem split_at (inside : bucket < rows.length) :
    rows = rows.take bucket ++ rows.row bucket :: rows.drop (bucket + 1) := by
  conv => lhs; rw [← List.take_append_drop bucket rows, List.drop_eq_getElem_cons inside]
  simp [row, inside]

theorem flatten_set_perm (inside : bucket < rows.length) (new : List α) :
    (rows.set bucket new).flatten ++ rows.row bucket ~ rows.flatten ++ new := by
  have changed : rows.set bucket new = rows.take bucket ++ new :: rows.drop (bucket + 1) :=
    List.set_eq_take_append_cons_drop.trans (if_pos inside)
  have before : rows.flatten = (rows.take bucket).flatten ++
      (rows.row bucket ++ (rows.drop (bucket + 1)).flatten) := by
    conv => lhs; rw [split_at inside]
    simp
  rw [changed, before]
  simp only [List.flatten_append, List.flatten_cons, List.append_assoc]
  apply List.Perm.append_left _
  let others := (rows.drop (bucket + 1)).flatten
  calc new ++ (others ++ rows.row bucket)
    _ ~ (others ++ rows.row bucket) ++ new := List.perm_append_comm
    _ ~ (rows.row bucket ++ others) ++ new := List.perm_append_comm.append_right _
    _ = rows.row bucket ++ (others ++ new) := by simp

@[simp] theorem length_put (hash : UInt64) (x : α) : (rows.put hash x).length = rows.length := by
  simp [put]

@[simp] theorem length_discard (hash : UInt64) (p : α → Bool) :
    (rows.discard hash p).length = rows.length := by
  simp [discard]

@[simp] theorem length_revise (hash : UInt64) (p : α → Bool) (change : α → α) :
    (rows.revise hash p change).length = rows.length := by
  simp [revise]

@[simp] theorem length_pour (xs : List α) : (pour hashOf rows xs).length = rows.length := by
  induction xs generalizing rows with
  | nil => rfl
  | cons x xs ih => exact ih.trans (length_put _ _)

theorem put_perm (positive : 0 < rows.length) (hash : UInt64) (x : α) :
    (rows.put hash x).flatten ~ x :: rows.flatten := by
  have inside := bucketOf_lt positive hash
  have exchanged := flatten_set_perm inside (x :: rows.row (bucketOf rows.length hash))
  apply (List.perm_append_right_iff (rows.row (bucketOf rows.length hash))).mp
  exact exchanged.trans List.perm_middle

theorem pour_perm (positive : 0 < rows.length) (xs : List α) :
    (pour hashOf rows xs).flatten ~ xs ++ rows.flatten := by
  induction xs generalizing rows with
  | nil => exact List.Perm.refl _
  | cons x xs ih =>
    have first := put_perm positive (hashOf x) x
    have rest := @ih (rows.put (hashOf x) x) (by simpa using positive)
    exact rest.trans ((first.append_left xs).trans List.perm_middle)

theorem split_at_found {xs : List α} {p : α → Bool} {x : α} (found : xs.find? p = some x) :
    ∃ before after, xs = before ++ x :: after ∧ p x = true ∧ (∀ y ∈ before, p y = false) ∧
      xs.eraseP p = before ++ after := by
  obtain ⟨holds, before, after, rfl, none⟩ := List.find?_eq_some_iff_append.mp found
  have skip : ∀ y ∈ before, p y = false := fun y member => by simpa using none y member
  refine ⟨before, after, rfl, holds, skip, ?_⟩
  rw [List.eraseP_append_right _ fun y member => by simp [skip y member],
    List.eraseP_cons_of_pos holds]

theorem cons_eraseP_perm {xs : List α} {p : α → Bool} {x : α} (found : xs.find? p = some x) :
    x :: xs.eraseP p ~ xs := by
  obtain ⟨before, after, parts, holds, skip, left⟩ := split_at_found found
  rw [left, parts]
  exact List.perm_middle.symm

theorem lt_of_found {p : α → Bool} {x : α} (found : (rows.row bucket).find? p = some x) :
    bucket < rows.length := by
  by_contra beyond
  rw [row_of_length_le (Nat.le_of_not_lt beyond)] at found
  cases found

theorem discard_perm {hash : UInt64} {p : α → Bool} {x : α}
    (found : (rows.row (bucketOf rows.length hash)).find? p = some x) :
    x :: (rows.discard hash p).flatten ~ rows.flatten := by
  let bucket := bucketOf rows.length hash
  have inside := lt_of_found found
  have exchanged := flatten_set_perm inside ((rows.row bucket).eraseP p)
  apply (List.perm_append_right_iff ((rows.row bucket).eraseP p)).mp
  calc x :: (rows.discard hash p).flatten ++ (rows.row bucket).eraseP p
    _ ~ (rows.discard hash p).flatten ++ x :: (rows.row bucket).eraseP p := List.perm_middle.symm
    _ ~ (rows.discard hash p).flatten ++ rows.row bucket :=
      (cons_eraseP_perm found).append_left _
    _ ~ rows.flatten ++ (rows.row bucket).eraseP p := exchanged

theorem changeFirst_append {before after : List α} {p : α → Bool} {x : α} (holds : p x = true)
    (skip : ∀ y ∈ before, p y = false) (change : α → α) :
    changeFirst p change (before ++ x :: after) = before ++ change x :: after := by
  unfold changeFirst
  induction before with
  | nil => simp [List.findIdx_cons, holds]
  | cons y before ih =>
    have first := skip y List.mem_cons_self
    have rest := ih fun z member => skip z (List.mem_cons_of_mem _ member)
    simp [List.findIdx_cons, first, rest]

theorem revise_perm {hash : UInt64} {p : α → Bool} {x : α}
    (found : (rows.row (bucketOf rows.length hash)).find? p = some x) (change : α → α) :
    (rows.revise hash p change).flatten ~ change x :: (rows.discard hash p).flatten := by
  let bucket := bucketOf rows.length hash
  have inside := lt_of_found found
  obtain ⟨before, after, row, holds, skip, left⟩ := split_at_found found
  have changed : changeFirst p change (rows.row bucket) = before ++ change x :: after := by
    rw [row]
    exact changeFirst_append holds skip change
  have revised := flatten_set_perm inside (before ++ change x :: after)
  have discarded := flatten_set_perm inside (before ++ after)
  unfold revise discard
  rw [changed, left]
  apply (List.perm_append_right_iff (rows.row bucket)).mp
  calc (rows.set bucket (before ++ change x :: after)).flatten ++ rows.row bucket
    _ ~ rows.flatten ++ (before ++ change x :: after) := revised
    _ ~ rows.flatten ++ (change x :: (before ++ after)) := List.perm_middle.append_left _
    _ ~ change x :: (rows.flatten ++ (before ++ after)) := List.perm_middle
    _ ~ change x :: ((rows.set bucket (before ++ after)).flatten ++ rows.row bucket) :=
      discarded.symm.cons _

theorem set_row_self (bucket : Nat) : rows.set bucket (rows.row bucket) = rows := by
  apply List.ext_getElem?
  intro other
  rw [List.getElem?_set]
  split
  · rename_i same
    subst other
    split
    · rename_i inside
      rw [getElem?_of_lt inside]
    · rename_i beyond
      rw [List.getElem?_eq_none (Nat.le_of_not_lt beyond)]
  · rfl

theorem discard_eq_self {hash : UInt64} {p : α → Bool}
    (absent : (rows.row (bucketOf rows.length hash)).find? p = none) :
    rows.discard hash p = rows := by
  have same : (rows.row (bucketOf rows.length hash)).eraseP p =
      rows.row (bucketOf rows.length hash) :=
    List.eraseP_of_forall_not fun x member => List.find?_eq_none.mp absent x member
  unfold discard
  rw [same, set_row_self]

theorem revise_eq_self {hash : UInt64} {p : α → Bool}
    (absent : (rows.row (bucketOf rows.length hash)).find? p = none) (change : α → α) :
    rows.revise hash p change = rows := by
  have beyond : (rows.row (bucketOf rows.length hash)).length ≤
      (rows.row (bucketOf rows.length hash)).findIdx p :=
    Nat.le_of_eq (List.findIdx_eq_length_of_false fun x member =>
      Bool.eq_false_iff.mpr (List.find?_eq_none.mp absent x member)).symm
  unfold revise changeFirst
  rw [List.modify_eq_self beyond, set_row_self]

theorem row_set_nil {new : List α} {other : Nat} (empty : rows.row other = [])
    (none : rows.row bucket = [] → new = []) : row (rows.set bucket new) other = [] := by
  rw [row_set]
  split
  · rename_i here
    rw [here.1] at none
    exact none empty
  · exact empty

theorem row_discard_nil {hash : UInt64} {p : α → Bool} (empty : rows.row bucket = []) :
    (rows.discard hash p).row bucket = [] := by
  apply row_set_nil empty
  intro none
  rw [none, List.eraseP_nil]

theorem row_revise_nil {hash : UInt64} {p : α → Bool} {change : α → α}
    (empty : rows.row bucket = []) : (rows.revise hash p change).row bucket = [] := by
  apply row_set_nil empty
  intro none
  rw [none]
  rfl

theorem filed_set {new : List α} (filed : Filed hashOf rows)
    (fits : ∀ x ∈ new, bucketOf rows.length (hashOf x) = bucket) :
    Filed hashOf (rows.set bucket new) := by
  intro other x member
  rw [List.length_set]
  rw [row_set] at member
  split at member
  · rename_i here
    exact (fits x member).trans here.1
  · exact filed other x member

theorem filed_put (filed : Filed hashOf rows) (x : α) : Filed hashOf (rows.put (hashOf x) x) := by
  apply filed_set filed
  intro y member
  rcases List.mem_cons.mp member with rfl | member
  · rfl
  · exact filed _ y member

theorem filed_pour (filed : Filed hashOf rows) (xs : List α) :
    Filed hashOf (pour hashOf rows xs) := by
  induction xs generalizing rows with
  | nil => exact filed
  | cons x xs ih => exact ih (filed_put filed x)

theorem filed_discard (filed : Filed hashOf rows) (hash : UInt64) (p : α → Bool) :
    Filed hashOf (rows.discard hash p) :=
  filed_set filed fun x member => filed _ x (List.mem_of_mem_eraseP member)

theorem mem_changeFirst {p : α → Bool} {change : α → α} {xs : List α} {x : α}
    (member : x ∈ changeFirst p change xs) : ∃ y ∈ xs, x = y ∨ x = change y := by
  obtain ⟨i, here⟩ := List.mem_iff_getElem?.mp member
  unfold changeFirst at here
  rw [List.getElem?_modify, Option.map_eq_map, Option.map_eq_some_iff] at here
  obtain ⟨y, inside, same⟩ := here
  refine ⟨y, List.mem_of_getElem? inside, ?_⟩
  split at same
  · exact Or.inr same.symm
  · exact Or.inl same.symm

theorem filed_revise (filed : Filed hashOf rows) (hash : UInt64) (p : α → Bool) {change : α → α}
    (same : ∀ x, hashOf (change x) = hashOf x) : Filed hashOf (rows.revise hash p change) := by
  apply filed_set filed
  intro x member
  obtain ⟨y, inRow, rfl | rfl⟩ := mem_changeFirst member
  · exact filed _ x inRow
  · rw [same]
    exact filed _ y inRow

theorem filed_empty (hashOf : α → UInt64) (buckets : Nat) :
    Filed hashOf (List.replicate buckets []) := by
  intro bucket x member
  have : (List.replicate buckets ([] : List α)).flatten = [] := by simp
  have := mem_flatten_iff.mpr ⟨bucket, member⟩
  simp at this

theorem mem_row_of_filed (filed : Filed hashOf rows) {x : α} (member : x ∈ rows.flatten) :
    x ∈ rows.row (bucketOf rows.length (hashOf x)) := by
  obtain ⟨bucket, inRow⟩ := mem_flatten_iff.mp member
  rwa [filed bucket x inRow]

section Map

variable {β : Type} (f : α → β)

def mapEach (rows : Rows α) : Rows β := rows.map (List.map f)

@[simp] theorem length_mapEach : (rows.mapEach f).length = rows.length := List.length_map _

@[simp] theorem row_mapEach (bucket : Nat) :
    (rows.mapEach f).row bucket = (rows.row bucket).map f := by
  by_cases inside : bucket < rows.length
  · simp [row, mapEach, inside]
  · simp [row, mapEach, Nat.le_of_not_lt inside]

theorem flatten_mapEach : (rows.mapEach f).flatten = rows.flatten.map f := by
  simp [mapEach, List.map_flatten]

theorem mapEach_set (new : List α) (bucket : Nat) :
    mapEach f (rows.set bucket new) = (rows.mapEach f).set bucket (new.map f) := by
  simp [mapEach]

theorem mapEach_put (hash : UInt64) (x : α) :
    (rows.put hash x).mapEach f = (rows.mapEach f).put hash (f x) := by
  simp [put, mapEach_set]

theorem mapEach_discard (hash : UInt64) (p : β → Bool) :
    (rows.discard hash (p ∘ f)).mapEach f = (rows.mapEach f).discard hash p := by
  simp [discard, mapEach_set, List.eraseP_map]

theorem map_changeFirst (p : β → Bool) {change : α → α} {other : β → β}
    (same : ∀ x, f (change x) = other (f x)) (xs : List α) :
    (changeFirst (p ∘ f) change xs).map f = changeFirst p other (xs.map f) := by
  unfold changeFirst
  induction xs with
  | nil => rfl
  | cons x xs ih =>
    by_cases holds : p (f x) = true
    · simp [List.findIdx_cons, holds, same]
    · simp [List.findIdx_cons, holds, ih]

theorem mapEach_revise (hash : UInt64) (p : β → Bool) {change : α → α} {other : β → β}
    (same : ∀ x, f (change x) = other (f x)) :
    (rows.revise hash (p ∘ f) change).mapEach f = (rows.mapEach f).revise hash p other := by
  simp [revise, mapEach_set, map_changeFirst f p same]

theorem mapEach_pour (hashOf : β → UInt64) (xs : List α) :
    (pour (hashOf ∘ f) rows xs).mapEach f = pour hashOf (rows.mapEach f) (xs.map f) := by
  induction xs generalizing rows with
  | nil => rfl
  | cons x xs ih =>
    simp only [pour, List.foldl_cons, List.map_cons] at ih ⊢
    rw [ih, mapEach_put]
    rfl

theorem mapEach_shifts (hashOf : β → UInt64) (buckets : List Nat) (tables : Rows α × Rows α) :
    ((buckets.foldl (shift (hashOf ∘ f)) tables).1.mapEach f,
        (buckets.foldl (shift (hashOf ∘ f)) tables).2.mapEach f) =
      buckets.foldl (shift hashOf) (tables.1.mapEach f, tables.2.mapEach f) := by
  induction buckets generalizing tables with
  | nil => rfl
  | cons bucket rest ih =>
    simp only [List.foldl_cons]
    rw [ih]
    simp [shift, mapEach_set, mapEach_pour]

end Map

section Shifts

variable {buckets : List Nat} {tables : Rows α × Rows α}

theorem length_shifts : (buckets.foldl (shift hashOf) tables).1.length = tables.1.length := by
  induction buckets generalizing tables with
  | nil => rfl
  | cons bucket rest ih => simp [ih, shift]

theorem length_shifts_target :
    (buckets.foldl (shift hashOf) tables).2.length = tables.2.length := by
  induction buckets generalizing tables with
  | nil => rfl
  | cons bucket rest ih => simp [ih, shift]

theorem row_shifts (bucket : Nat) : (buckets.foldl (shift hashOf) tables).1.row bucket =
    if bucket ∈ buckets then [] else tables.1.row bucket := by
  induction buckets generalizing tables with
  | nil => simp
  | cons first rest ih =>
    rw [List.foldl_cons, ih]
    by_cases later : bucket ∈ rest
    · simp [later]
    · by_cases now : bucket = first
      · subst bucket
        have emptied : row (tables.1.set first []) first = [] := by
          rw [row_set]
          split
          · rfl
          · rename_i beyond
            exact row_of_length_le (by omega)
        simp [later, shift, emptied]
      · have kept : row (tables.1.set first []) bucket = tables.1.row bucket := by
          rw [row_set, if_neg]
          exact fun same => now same.1.symm
        simp [later, now, shift, kept]

theorem shift_perm (positive : 0 < tables.2.length) (bucket : Nat) :
    (shift hashOf tables bucket).1.flatten ++ (shift hashOf tables bucket).2.flatten ~
      tables.1.flatten ++ tables.2.flatten := by
  by_cases inside : bucket < tables.1.length
  · have emptied := flatten_set_perm inside []
    rw [List.append_nil] at emptied
    apply ((pour_perm positive _).append_left _).trans
    rw [← List.append_assoc]
    exact emptied.append_right _
  · have nothing := row_of_length_le (Nat.le_of_not_lt inside)
    simp [shift, nothing, pour, List.set_eq_of_length_le (Nat.le_of_not_lt inside)]

theorem shifts_perm (positive : 0 < tables.2.length) :
    (buckets.foldl (shift hashOf) tables).1.flatten ++
        (buckets.foldl (shift hashOf) tables).2.flatten ~
      tables.1.flatten ++ tables.2.flatten := by
  induction buckets generalizing tables with
  | nil => exact List.Perm.refl _
  | cons bucket rest ih =>
    exact (ih (by simpa [shift] using positive)).trans (shift_perm positive bucket)

theorem flatten_shifts_le : (buckets.foldl (shift hashOf) tables).1.flatten.length ≤
    tables.1.flatten.length := by
  induction buckets generalizing tables with
  | nil => exact Nat.le_refl _
  | cons bucket rest ih =>
    refine Nat.le_trans ih ?_
    change (tables.1.set bucket []).flatten.length ≤ tables.1.flatten.length
    by_cases inside : bucket < tables.1.length
    · have emptied := (flatten_set_perm inside []).length_eq
      rw [List.append_nil, List.length_append] at emptied
      omega
    · exact Nat.le_of_eq (by rw [List.set_eq_of_length_le (Nat.le_of_not_lt inside)])

theorem filed_shifts (filed : Filed hashOf tables.1) (target : Filed hashOf tables.2) :
    Filed hashOf (buckets.foldl (shift hashOf) tables).1 ∧
      Filed hashOf (buckets.foldl (shift hashOf) tables).2 := by
  induction buckets generalizing tables with
  | nil => exact ⟨filed, target⟩
  | cons bucket rest ih =>
    refine ih (filed_set filed fun x member => ?_) (filed_pour target _)
    cases member

theorem flatten_eq_nil (empty : ∀ bucket, bucket < rows.length → rows.row bucket = []) :
    rows.flatten = [] := by
  apply List.eq_nil_iff_forall_not_mem.mpr
  intro x member
  obtain ⟨bucket, inRow⟩ := mem_flatten_iff.mp member
  by_cases inside : bucket < rows.length
  · simp [empty bucket inside] at inRow
  · simp [row_of_length_le (Nat.le_of_not_lt inside)] at inRow

end Shifts

end Rows

end MemIndex.ChainMap
