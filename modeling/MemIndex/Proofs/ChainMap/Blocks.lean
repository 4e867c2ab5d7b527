import MemIndex.Proofs.ChainMap.Scanning

/- The pairs of a bucket are those whose places lie in its block. A call at the start of a block of
   the smaller table therefore reads the pairs of that block, each of them once, in whichever table
   a resize has left them. -/
namespace MemIndex.ChainMap

open Cursor

open scoped List

variable {K V α : Type}

section Lists

variable (g : α → Nat) (xs : List α)

theorem filter_next_perm (start n : Nat) :
    (xs.filter fun x => start ≤ g x ∧ g x < start + n) ++ (xs.filter fun x => g x = start + n) ~
      xs.filter fun x => start ≤ g x ∧ g x < start + (n + 1) := by
  have parts := List.filter_append_perm (fun x => decide (g x < start + n))
    (xs.filter fun x => start ≤ g x ∧ g x < start + (n + 1))
  rw [List.filter_filter, List.filter_filter] at parts
  convert parts using 2
  · apply List.filter_congr
    intro x _
    grind
  · apply List.filter_congr
    intro x _
    grind

theorem filter_range_perm (start n : Nat) :
    ((List.range' start n).flatMap fun b => xs.filter fun x => g x = b) ~
      xs.filter fun x => start ≤ g x ∧ g x < start + n := by
  induction n with
  | zero =>
    have none : (xs.filter fun x => start ≤ g x ∧ g x < start + 0) = [] := by
      rw [List.filter_eq_nil_iff]
      grind
    rw [none]
    exact List.Perm.refl _
  | succ n ih =>
    rw [List.range'_1_concat, List.flatMap_append, List.flatMap_singleton]
    exact (ih.append_right _).trans (filter_next_perm g xs start n)

end Lists

namespace Rows

variable {rows : Rows α} {hashOf : α → UInt64} {j k : Nat}

theorem filter_row (f : α → Nat) (start : Nat)
    (placed : ∀ bucket, ∀ x ∈ rows.row bucket, f x = start + bucket) (bucket : Nat) :
    (rows.flatten.filter fun x => f x = start + bucket) = rows.row bucket := by
  induction rows generalizing start bucket with
  | nil => simp [row]
  | cons first rest ih =>
    have inFirst : ∀ x ∈ first, f x = start := placed 0
    have inRest : ∀ bucket, ∀ x ∈ Rows.row rest bucket, f x = start + 1 + bucket := by
      intro bucket x member
      rw [Nat.add_assoc, Nat.add_comm 1]
      exact placed (bucket + 1) x member
    rw [List.flatten_cons, List.filter_append]
    cases bucket with
    | zero =>
      have all : (first.filter fun x => f x = start + 0) = first := by
        rw [List.filter_eq_self]
        intro x member
        simp [inFirst x member]
      have none : (rest.flatten.filter fun x => f x = start + 0) = [] := by
        rw [List.filter_eq_nil_iff]
        intro x member
        obtain ⟨bucket, inRow⟩ := mem_flatten_iff.mp member
        simp only [inRest bucket x inRow, decide_eq_true_eq]
        omega
      rw [all, none, List.append_nil]
      rfl
    | succ bucket =>
      have none : (first.filter fun x => f x = start + (bucket + 1)) = [] := by
        rw [List.filter_eq_nil_iff]
        intro x member
        simp [inFirst x member]
      have others := ih (start + 1) inRest bucket
      rw [none, List.nil_append, ← Nat.add_comm 1, ← Nat.add_assoc, others]
      simp [row, Nat.add_comm 1]

theorem filter_bucket (filed : Filed hashOf rows) (bucket : Nat) :
    (rows.flatten.filter fun x => bucketOf rows.length (hashOf x) = bucket) = rows.row bucket := by
  have placed : ∀ bucket, ∀ x ∈ rows.row bucket, bucketOf rows.length (hashOf x) = 0 + bucket := by
    intro bucket x member
    rw [Nat.zero_add]
    exact filed bucket x member
  have found := filter_row (fun x => bucketOf rows.length (hashOf x)) 0 placed bucket
  rwa [Nat.zero_add] at found

theorem filter_word (size : rows.length = 2 ^ k) (filed : Filed hashOf rows) (word : UInt64) :
    (rows.flatten.filter fun x => position (hashOf x) / width k = position word / width k) =
      rows.row (bucketOf rows.length word) := by
  rw [← filter_bucket filed]
  apply List.filter_congr
  intro x _
  rw [size, decide_eq_decide]
  exact (bucketOf_eq_iff k _ _).symm

theorem filter_block (size : rows.length = 2 ^ k) (filed : Filed hashOf rows) {block : Nat}
    (inside : block * width k < 2 ^ 64) :
    (rows.flatten.filter fun x => position (hashOf x) / width k = block) = rows.block block := by
  have here := filter_word size filed (wordAt (block * width k))
  rw [position_wordAt inside, Nat.mul_div_cancel _ (width_positive k)] at here
  rw [here, Rows.block, bits_of_pow size]

theorem sweep_perm (size : rows.length = 2 ^ k) (le : j ≤ k) (filed : Filed hashOf rows)
    {cursor : UInt64} (aligned : width j ∣ position cursor) :
    rows.sweep j cursor ~ rows.flatten.filter fun x =>
      position (hashOf x) / width j = position cursor / width j := by
  have positive := width_positive k
  obtain ⟨ratio, even⟩ := width_dvd_width le
  have many : 0 < ratio := by
    apply Nat.pos_of_ne_zero
    rintro rfl
    exact absurd even (width_positive j).ne'
  -- The block of the smaller table is `ratio` blocks of this one, and they are whole.
  let outer := position cursor / width j
  have from_start : position cursor / width k = outer * ratio := by
    have whole : position cursor = outer * ratio * width k := by
      rw [Nat.mul_assoc, Nat.mul_comm ratio, ← even]
      exact (Nat.div_mul_cancel aligned).symm
    rw [whole, Nat.mul_div_cancel _ positive]
  have limit : (outer * ratio + ratio) * width k ≤ 2 ^ 64 := by
    have stop := block_end_le cursor j
    rw [Nat.add_mul, Nat.one_mul] at stop
    rw [Nat.add_mul, Nat.mul_assoc, Nat.mul_comm ratio, ← even]
    exact stop
  have blocks : (List.range' (outer * ratio) ratio).flatMap rows.block =
      (List.range' (outer * ratio) ratio).flatMap fun block =>
        rows.flatten.filter fun x => position (hashOf x) / width k = block := by
    apply List.flatMap_congr
    intro block member
    rw [List.mem_range'_1] at member
    refine (filter_block size filed ?_).symm
    exact Nat.lt_of_lt_of_le (Nat.mul_lt_mul_of_pos_right member.2 positive) limit
  have swept : rows.sweep j cursor =
      (List.range' (outer * ratio) ratio).flatMap rows.block := by
    have span : (outer + 1) * ratio - outer * ratio = ratio := by
      rw [Nat.add_mul, Nat.one_mul, Nat.add_sub_cancel_left]
    have sizes : width j / width k = ratio := by rw [even, Nat.mul_div_cancel_left _ positive]
    rw [Rows.sweep, bits_of_pow size, from_start, sizes]
    change (List.range' _ ((outer + 1) * ratio - outer * ratio)).flatMap rows.block = _
    rw [span]
  rw [swept, blocks]
  apply (filter_range_perm _ _ _ _).trans
  apply List.Perm.of_eq
  apply List.filter_congr
  intro x _
  rw [decide_eq_decide]
  change _ ↔ _ = outer
  rw [even, ← Nat.div_div_eq_div_mul, Nat.div_eq_iff many]
  omega

end Rows

section Pieces

def smallest (map : ChainMap K V) : Nat :=
  match map.target? with
  | none => map.active.buckets
  | some target => min map.active.buckets target.buckets

def Plain.smallest (p : Plain K V) : Nat :=
  match p.moving with
  | none => p.active.length
  | some (_, target) => min p.active.length target.length

variable {map : ChainMap K V} {p : Plain K V}

theorem smallest_refines (represents : Represents map p) : map.smallest = p.smallest := by
  obtain ⟨active, target, laid, rfl⟩ := represents
  have size := Table.buckets_of_lays laid.activeLays
  have onTarget := laid.targetLays
  cases phase : map.phase with
  | stable => simp [smallest, target?, phase, Plain.smallest, plainOf, size]
  | resizing cursor table =>
    simp only [phase] at onTarget
    have targetSize := Table.buckets_of_lays onTarget.1
    simp [smallest, target?, phase, Plain.smallest, plainOf, size, targetSize]

theorem smallest_pow (tidy : p.Tidy) : ∃ j, p.smallest = 2 ^ j := by
  cases moving : p.moving with
  | none =>
    simp only [Plain.smallest, moving]
    exact tidy.size
  | some state =>
    simp only [Plain.smallest, moving]
    rcases Nat.le_total p.active.length state.2.length with less | less
    · rw [Nat.min_eq_left less]
      exact tidy.size
    · rw [Nat.min_eq_right less]
      exact (tidy.midway _ _ moving).size

/-- A cursor goes on by one block of the smaller table. From the start of the block on, the piece is
the whole of it, over both tables. -/
theorem scan_block (tidy : p.Tidy) {j : Nat} (least : p.smallest = 2 ^ j) (cursor : UInt64) :
    (p.scan cursor).1 = advance cursor (mask j) ∧
      (width j ∣ position cursor → (p.scan cursor).2 ~ p.entries.filter fun pair =>
        position (p.hash pair.1) / width j = position cursor / width j) := by
  obtain ⟨k, size⟩ := tidy.size
  cases moving : p.moving with
  | none =>
    have all : p.entries = p.active.flatten := by simp [Plain.entries, Plain.target, moving]
    simp only [Plain.smallest, moving] at least
    simp only [Plain.scan, moving, Rows.bits_of_pow least, all, true_and]
    exact fun _ => List.Perm.of_eq (Rows.filter_word least tidy.filed cursor).symm
  | some state =>
    obtain ⟨start, target⟩ := state
    obtain ⟨m, targetSize⟩ := (tidy.midway _ _ moving).size
    have targetFiled := Plain.targetFiled_of_moving tidy moving
    rw [Plain.entries_of_moving moving]
    simp only [Plain.smallest, moving] at least
    simp only [Plain.scan, moving, List.filter_append]
    by_cases less : target.length < p.active.length
    · rw [Nat.min_eq_right (Nat.le_of_lt less)] at least
      have le := Rows.bits_le least size (Nat.le_of_lt less)
      have inTarget := Rows.filter_word least targetFiled cursor
      simp only [if_pos less, Rows.bits_of_pow least, ← inTarget, true_and]
      intro aligned
      have inActive := Rows.sweep_perm size le tidy.filed aligned
      exact (inActive.append_left _).trans List.perm_append_comm
    · rw [Nat.min_eq_left (Nat.le_of_not_lt less)] at least
      have le := Rows.bits_le least targetSize (Nat.le_of_not_lt less)
      have inActive := Rows.filter_word least tidy.filed cursor
      simp only [if_neg less, Rows.bits_of_pow least, ← inActive, true_and]
      intro aligned
      exact (Rows.sweep_perm targetSize le targetFiled aligned).append_left _

end Pieces

section Passes

variable {p : Plain K V} {j n : Nat} {cursor : UInt64}

/-- The cursors of a pass over a table of 2^j buckets. There are no more of them than words. -/
def cursors (j : Nat) : Nat := min (2 ^ j) (2 ^ 64)

theorem cursors_width (j : Nat) : cursors j * width j = 2 ^ 64 := by
  unfold cursors
  rcases Nat.le_total j 64 with small | large
  · rw [Nat.min_eq_left (Nat.pow_le_pow_right (by decide) small), width_whole small]
  · rw [Nat.min_eq_right (Nat.pow_le_pow_right (by decide) large), width_single large,
      Nat.mul_one]

theorem next_place (place : position cursor = n * width j) :
    n + 1 < cursors j ∧ position (advance cursor (mask j)) = (n + 1) * width j ∨
      cursors j ≤ n + 1 ∧ advance cursor (mask j) = 0 := by
  have positive := width_positive j
  have stops := advance_cases cursor j
  rw [place, Nat.mul_div_cancel _ positive, ← cursors_width j] at stops
  rcases stops with ⟨last, ended⟩ | ⟨before, further⟩
  · exact Or.inr ⟨(Nat.eq_of_mul_eq_mul_right positive last).ge, ended⟩
  · exact Or.inl ⟨Nat.lt_of_mul_lt_mul_right before, further⟩

def Plain.firstBlocks (p : Plain K V) (j n : Nat) : List (K × V) :=
  p.entries.filter fun pair => position (p.hash pair.1) / width j < n

theorem next_read (tidy : p.Tidy) (least : p.smallest = 2 ^ j)
    (place : position cursor = n * width j) {read : List (K × V)}
    (before : read ~ p.firstBlocks j n) :
    read ++ (p.scan cursor).2 ~ p.firstBlocks j (n + 1) := by
  have onBlock : width j ∣ position cursor := by
    rw [place]
    exact Nat.dvd_mul_left _ _
  have batch := (scan_block tidy least cursor).2 onBlock
  have next := filter_next_perm (fun pair => position (p.hash pair.1) / width j) p.entries 0 n
  simp only [Nat.zero_add, Nat.zero_le, true_and] at next
  rw [place, Nat.mul_div_cancel _ (width_positive j)] at batch
  exact (before.append batch).trans next

theorem firstBlocks_all (enough : cursors j ≤ n) : p.firstBlocks j n = p.entries := by
  rw [Plain.firstBlocks, List.filter_eq_self]
  intro pair _
  have inside : position (p.hash pair.1) / width j < cursors j := by
    rw [Nat.div_lt_iff_lt_mul (width_positive j), cursors_width]
    exact position_lt _
  exact decide_eq_true (Nat.lt_of_lt_of_le inside enough)

end Passes

end MemIndex.ChainMap
