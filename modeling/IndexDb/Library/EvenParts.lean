import Mathlib.Data.List.SplitLengths
import Mathlib.Algebra.Order.Group.Nat
import Mathlib.Algebra.BigOperators.Group.List.Basic
import Mathlib.Tactic.Linarith
import Mathlib.Tactic.Ring

/-!
# Even parts

A total is split into the fewest parts of at most `most` each, as even as they
can be.  The parts add up to the total, and as soon as one part does not
suffice every part is at least half full.  Parts of parts are packed level by
level until one remains, and no way to pack them needs fewer levels.
-/

namespace IndexDb

/-- How many parts of at most `most` a total needs. -/
def partCount (total most : Nat) : Nat :=
  (total + most - 1) / most

def evenParts (total most : Nat) : List Nat :=
  (List.range (partCount total most)).map fun i =>
    if i < total % partCount total most then total / partCount total most + 1
    else total / partCount total most

section PartCount

variable {total most : Nat}

theorem partCount_covers (total : Nat) (positive : 0 < most) :
    total ≤ partCount total most * most := by
  have split := Nat.div_add_mod (total + most - 1) most
  have small := Nat.mod_lt (total + most - 1) positive
  rw [Nat.mul_comm] at split
  unfold partCount
  omega

theorem partCount_fewest (total most : Nat) :
    partCount total most * most ≤ total + most - 1 :=
  Nat.div_mul_le_self _ _

theorem partCount_pos (positive : 0 < most) (some : 0 < total) :
    0 < partCount total most :=
  Nat.div_pos (by omega) positive

theorem partCount_le_one (positive : 0 < most) (fits : total ≤ most) :
    partCount total most ≤ 1 :=
  Nat.le_of_lt_succ (Nat.div_lt_of_lt_mul (by omega))

theorem partCount_one (some : 0 < total) (fits : total ≤ most) :
    partCount total most = 1 := by
  unfold partCount
  rw [Nat.div_eq_iff (by omega)]
  omega

theorem partCount_several (positive : 0 < most) (wide : most < total) :
    2 ≤ partCount total most := by
  have covers := partCount_covers total positive
  by_contra few
  have : partCount total most * most ≤ 1 * most :=
    Nat.mul_le_mul_right most (by omega)
  omega

theorem partCount_lt (large : 2 ≤ most) (several : 1 < total) :
    partCount total most < total := by
  have fewest := partCount_fewest total most
  have : partCount total most * 2 ≤ partCount total most * most :=
    Nat.mul_le_mul_left _ large
  by_contra many
  have : total * most ≤ partCount total most * most :=
    Nat.mul_le_mul_right most (by omega)
  nlinarith [Nat.sub_add_cancel (show 1 ≤ total + most by omega)]

theorem partCount_le_iff (positive : 0 < most) {parts : Nat} :
    partCount total most ≤ parts ↔ total ≤ parts * most := by
  have covers := partCount_covers total positive
  constructor
  · intro few
    exact covers.trans (Nat.mul_le_mul_right most few)
  · intro fits
    by_contra many
    have fewest := partCount_fewest total most
    have : (parts + 1) * most ≤ partCount total most * most :=
      Nat.mul_le_mul_right most (by omega)
    rw [Nat.add_mul] at this
    omega

end PartCount

section Levels

/-- The sizes of `h` levels above the first, each packed into the next, when the
first packs `n` items by `few` and every other one by `most`. -/
structure Packs (few most n h : Nat) (size : Nat → Nat) : Prop where
  first : size 0 = partCount n few
  next : ∀ k < h, size (k + 1) = partCount (size k) most
  several : ∀ k < h, 1 < size k

variable {few most n h : Nat} {size : Nat → Nat}

/-- A level is small exactly when the items are few. -/
theorem Packs.size_le_iff (packs : Packs few most n h size) (some : 0 < few)
    (positive : 0 < most) {k : Nat} (inside : k ≤ h) {parts : Nat} :
    size k ≤ parts ↔ n ≤ parts * (few * most ^ k) := by
  induction k generalizing parts with
  | zero => rw [packs.first, partCount_le_iff some, pow_zero, Nat.mul_one]
  | succ k ih =>
      rw [packs.next k inside, partCount_le_iff positive, ih (by omega), pow_succ]
      ring_nf

/-- Packing takes no more levels than the items need. -/
theorem Packs.height_le (packs : Packs few most n h size) (some : 0 < few)
    (positive : 0 < most) {levels : Nat} (fits : n ≤ few * most ^ levels) :
    h ≤ levels := by
  by_contra short
  have several := packs.several levels (by omega)
  have single : size levels ≤ 1 := by
    rwa [packs.size_le_iff some positive (by omega), Nat.one_mul]
  omega

variable {other : Nat → Nat} {levels : Nat}

/-- Packing makes the fewest parts on every level. -/
theorem Packs.size_le (packs : Packs few most n h size) (some : 0 < few)
    (positive : 0 < most) (holds : n ≤ other 0 * few)
    (raises : ∀ k < levels, other k ≤ other (k + 1) * most) {k : Nat} (inside : k ≤ h)
    (within : k ≤ levels) : size k ≤ other k := by
  induction k with
  | zero =>
      rw [packs.first, partCount_le_iff some]
      exact holds
  | succ k ih =>
      rw [packs.next k inside, partCount_le_iff positive]
      exact (ih (by omega) (by omega)).trans (raises k within)

/-- Packing makes the fewest levels. -/
theorem Packs.height_le_levels (packs : Packs few most n h size) (some : 0 < few)
    (positive : 0 < most) (holds : n ≤ other 0 * few)
    (raises : ∀ k < levels, other k ≤ other (k + 1) * most)
    (single : other levels = 1) : h ≤ levels := by
  by_contra short
  have several := packs.several levels (by omega)
  have fewest := packs.size_le some positive holds raises (by omega) (Nat.le_refl levels)
  omega

end Levels

/-- Adding up parts of which the first few are larger by one. -/
theorem sum_spread (parts larger base : Nat) :
    ((List.range parts).map fun i =>
      if i < larger then base + 1 else base).sum =
      parts * base + min parts larger := by
  induction parts with
  | zero => simp
  | succ parts ih =>
      rw [List.range_succ, List.map_append, List.sum_append, ih, Nat.add_mul]
      simp only [List.map_cons, List.map_nil, List.sum_cons, List.sum_nil]
      split <;> omega

section Parts

variable {total most : Nat}

@[simp]
theorem evenParts_length : (evenParts total most).length = partCount total most := by
  simp [evenParts]

theorem evenParts_sum (positive : 0 < most) : (evenParts total most).sum = total := by
  by_cases none : total = 0
  · subst none
    simp [evenParts, partCount, Nat.div_eq_of_lt (show most - 1 < most by omega)]
  · have count := partCount_pos positive (Nat.pos_of_ne_zero none)
    have small := Nat.mod_lt total count
    rw [evenParts, sum_spread, Nat.min_eq_right small.le]
    exact Nat.div_add_mod total _

/-- A part is the quotient, or larger by one while there is a remainder. -/
theorem mem_evenParts {part : Nat} (member : part ∈ evenParts total most) :
    part = total / partCount total most ∨
      part = total / partCount total most + 1 ∧
        0 < total % partCount total most := by
  simp only [evenParts, List.mem_map, List.mem_range] at member
  obtain ⟨i, -, rfl⟩ := member
  split
  · exact .inr ⟨rfl, by omega⟩
  · exact .inl rfl

theorem evenParts_le (positive : 0 < most) {part : Nat}
    (member : part ∈ evenParts total most) : part ≤ most := by
  have covers := partCount_covers total positive
  have split := Nat.div_add_mod total (partCount total most)
  rcases mem_evenParts member with rfl | ⟨rfl, rest⟩
  · exact Nat.div_le_of_le_mul covers
  · by_contra large
    have : partCount total most * most ≤
        partCount total most * (total / partCount total most) :=
      Nat.mul_le_mul_left _ (by omega)
    omega

/-- Every part is at least the quotient. -/
theorem quotient_le_evenParts {part : Nat} (member : part ∈ evenParts total most) :
    total / partCount total most ≤ part := by
  rcases mem_evenParts member with rfl | ⟨rfl, -⟩ <;> omega

theorem evenParts_pos (positive : 0 < most) {part : Nat}
    (member : part ∈ evenParts total most) : 0 < part := by
  have some : 0 < total := by
    have nonempty := List.length_pos_of_mem member
    rw [evenParts_length] at nonempty
    by_contra none
    have small : total + most - 1 < most := by omega
    simp [partCount, Nat.div_eq_of_lt small] at nonempty
  have count := partCount_pos positive some
  refine Nat.lt_of_lt_of_le (Nat.div_pos ?_ count) (quotient_le_evenParts member)
  by_contra many
  have fewest := partCount_fewest total most
  have : (total + 1) * most ≤ partCount total most * most :=
    Nat.mul_le_mul_right most (by omega)
  have : total * 1 ≤ total * most := Nat.mul_le_mul_left total positive
  rw [Nat.add_mul] at *
  omega

/-- Any two parts are as even as can be. -/
theorem evenParts_even {one other : Nat} (member : one ∈ evenParts total most)
    (otherMember : other ∈ evenParts total most) : one ≤ other + 1 := by
  have least := quotient_le_evenParts otherMember
  rcases mem_evenParts member with rfl | ⟨rfl, -⟩ <;> omega

/-- Parts of a total that does not fit into one are at least half full. -/
theorem evenParts_half (positive : 0 < most) (wide : most < total) {part : Nat}
    (member : part ∈ evenParts total most) : (most + 1) / 2 ≤ part := by
  have several := partCount_several positive wide
  have fewest := partCount_fewest total most
  refine le_trans ?_ (quotient_le_evenParts member)
  rw [Nat.le_div_iff_mul_le (by omega)]
  have half : 2 * ((most + 1) / 2) ≤ most + 1 := Nat.mul_div_le _ _
  generalize (most + 1) / 2 = least at *
  generalize partCount total most = count at *
  have least_count : 2 * least * count ≤ (most + 1) * count :=
    Nat.mul_le_mul_right count half
  obtain ⟨more, rfl⟩ : ∃ more, count = more + 2 := ⟨count - 2, by omega⟩
  obtain ⟨rest, rfl⟩ : ∃ rest, most = rest + 1 := ⟨most - 1, by omega⟩
  have spare : 0 ≤ more * rest := Nat.zero_le _
  have room : (more + 2) * (rest + 1) ≤ total + rest := by simpa using fewest
  nlinarith

theorem evenParts_single (some : 0 < total) (fits : total ≤ most) :
    evenParts total most = [total] := by
  simp [evenParts, partCount_one some fits, Nat.mod_one]

end Parts

end IndexDb
