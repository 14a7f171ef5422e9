/-
# PhraseChart.Proofs.Chart.Places -- the cells of a triangle fill its places row by row

Twice the number of cells before a row is a product whose factors have an odd sum, so it is even
and halving it loses nothing (`two_mul_rowStart`).  The places of a row follow those of the rows
before it without a gap, so by induction over the rows every place belongs to a cell
(`exists_index?`), and the places are ordered as the cells are (`index?_lt_iff`).

The product is at most twice the number of all cells.  So with words of 64 bits the place of a cell
comes out right as long as twice the number of all cells is such a word (`wordIndex?_eq`).

`places_row_by_row` puts this together for the cells of a chart.
-/
import Mathlib.Algebra.Ring.Parity
import Mathlib.Data.Set.Function
import Mathlib.Order.Interval.Set.Defs
import PhraseChart.Chart
import PhraseChart.Chart.FixedWidth

namespace PhraseChart.Triangle

set_option autoImplicit false

variable {side first last first' last' index index' : Nat}

theorem inside_of_index? (h : index? side first last = some index) :
    (first ≤ last ∧ last < side) ∧ index = rowStart side first + (last - first) := by
  unfold index? at h
  split at h
  · exact ⟨‹_›, (Option.some.inj h).symm⟩
  · cases h

/-! ## Rows -/

/-- One of the two factors is even. -/
theorem even_rowProduct (h : first ≤ 2 * side) : Even (first * (2 * side - first + 1)) := by
  obtain ⟨rest, total⟩ := Nat.exists_eq_add_of_le h
  have sameParity : Even first ↔ Even rest := Nat.even_add.1 (total ▸ even_two_mul side)
  rw [total, Nat.add_sub_cancel_left, Nat.even_mul, Nat.even_add_one, sameParity]
  exact em _

theorem two_mul_rowStart (h : first ≤ 2 * side) :
    2 * rowStart side first = first * (2 * side - first + 1) :=
  Nat.two_mul_div_two_of_even (even_rowProduct h)

/-- **The place of a cell is exact**: computed with integers, no difference on the way is negative
and no half is lost. -/
theorem exact_of_index? (h : index? side first last = some index) :
    0 ≤ (2 * side - first : Int) ∧ 0 ≤ (last - first : Int) ∧
      Even (first * (2 * side - first + 1) : Int) ∧
      (index : Int) = first * (2 * side - first + 1) / 2 + (last - first) := by
  obtain ⟨⟨ordered, below⟩, rfl⟩ := inside_of_index? h
  have before : first ≤ 2 * side := by omega
  have product : (first * (2 * side - first + 1) : Int) =
      (first * (2 * side - first + 1) : Nat) := by
    rw [Int.natCast_mul, Int.natCast_add, Int.natCast_sub before, Int.natCast_mul]
    rfl
  rw [product]
  refine ⟨by omega, by omega, (Int.even_coe_nat _).2 (even_rowProduct before), ?_⟩
  rw [rowStart]
  omega

/-- **Every place before a row belongs to a cell** of an earlier row. -/
theorem exists_index? {rows : Nat} (inside : rows ≤ side) (h : index < rowStart side rows) :
    ∃ first last, index? side first last = some index := by
  induction rows with
  | zero => simp [rowStart] at h
  | succ row ih =>
      rw [rowStart_succ inside] at h
      by_cases before : index < rowStart side row
      · exact ih (Nat.le_of_succ_le inside) before
      · refine ⟨row, row + (index - rowStart side row), ?_⟩
        rw [index?_eq_some (by omega) (by omega), Option.some.injEq]
        omega

/-! ## Order -/

/-- A cell further down, or further right in the same row, has a later place. -/
theorem index?_lt_of_lt (h : index? side first last = some index)
    (h' : index? side first' last' = some index')
    (before : first < first' ∨ first = first' ∧ last < last') : index < index' := by
  obtain ⟨inside, rfl⟩ := inside_of_index? h
  obtain ⟨inside', rfl⟩ := inside_of_index? h'
  rcases before with above | ⟨rfl, left⟩
  · have := rowStart_add_le above (show first' ≤ side by omega)
    omega
  · omega

/-- **The places are ordered row by row**, and from left to right in each row. -/
theorem index?_lt_iff (h : index? side first last = some index)
    (h' : index? side first' last' = some index') :
    index < index' ↔ first < first' ∨ first = first' ∧ last < last' := by
  refine ⟨fun before => ?_, index?_lt_of_lt h h'⟩
  by_contra notBefore
  -- Otherwise the cells are the same, or the second comes first.
  by_cases same : first = first' ∧ last = last'
  · obtain ⟨rfl, rfl⟩ := same
    have := Option.some.inj (h.symm.trans h')
    omega
  · have := index?_lt_of_lt h' h (by omega)
    omega

/-! ## Words -/

section Words

open FixedWidth

/-- A triangle whose number of cells can be doubled has a side of 32 bits. -/
theorem side_lt_of_fits (fits : side * (side + 1) < UInt64.size) : side < 2 ^ 32 := by
  have square : side * side < 2 ^ 32 * 2 ^ 32 :=
    Nat.lt_of_le_of_lt (Nat.mul_le_mul_left side (Nat.le_succ side)) fits
  exact Nat.mul_self_lt_mul_self_iff.1 square

/-- The product is twice the number of cells before the row, which is at most twice the number of
all cells. -/
theorem exists_wordRowStart?_eq {side first : UInt64} (below : first.toNat < side.toNat)
    (fits : side.toNat * (side.toNat + 1) < UInt64.size) :
    ∃ before, wordRowStart? side first = some before ∧
      before.toNat = rowStart side.toNat first.toNat := by
  have small := side_lt_of_fits fits
  have earlier := rowStart_add_le below (Nat.le_refl _)
  rw [rowStart_side] at earlier
  have size : UInt64.size = 2 ^ 64 := rfl
  have one : (1 : UInt64).toNat = 1 := rfl
  have two : (2 : UInt64).toNat = 2 := rfl
  obtain ⟨doubled, isDoubled, doubled_eq⟩ := @exists_mul?_eq 2 side (by rw [two]; omega)
  rw [two] at doubled_eq
  obtain ⟨shortened, isShortened, shortened_eq⟩ := @exists_sub?_eq doubled first (by omega)
  obtain ⟨factor, isFactor, factor_eq⟩ := @exists_add?_eq shortened 1 (by omega)
  have twice : first.toNat * factor.toNat = 2 * rowStart side.toNat first.toNat := by
    rw [two_mul_rowStart (by omega), factor_eq, shortened_eq, doubled_eq, one]
  obtain ⟨product, isProduct, product_eq⟩ := @exists_mul?_eq first factor (by omega)
  refine ⟨product / 2, by simp [wordRowStart?, isDoubled, isShortened, isFactor, isProduct], ?_⟩
  rw [UInt64.toNat_div, product_eq, twice]
  exact Nat.mul_div_cancel_left _ (by decide)

/-- **The place of a cell comes out right in words of 64 bits** if twice the number of all cells is
such a word. -/
theorem wordIndex?_eq {side first last : UInt64}
    (fits : side.toNat * (side.toNat + 1) < UInt64.size) :
    ∃ place, wordIndex? side first last = some place ∧
      place.map UInt64.toNat = index? side.toNat first.toNat last.toNat := by
  unfold wordIndex?
  split <;> rename_i inside <;> rw [UInt64.le_iff_toNat_le, UInt64.lt_iff_toNat_lt] at inside
  · obtain ⟨ordered, below⟩ := inside
    have isPlace := index?_eq_some ordered below
    have placed := index?_lt_size isPlace
    obtain ⟨before, isBefore, before_eq⟩ :=
      exists_wordRowStart?_eq (Nat.lt_of_le_of_lt ordered below) fits
    obtain ⟨offset, isOffset, offset_eq⟩ := exists_sub?_eq ordered
    obtain ⟨place, isWord, place_eq⟩ := @exists_add?_eq before offset (by omega)
    refine ⟨some place, by simp [isBefore, isOffset, isWord], ?_⟩
    rw [isPlace, Option.map_some, place_eq, before_eq, offset_eq]
  · exact ⟨none, rfl, (index?_eq_none inside).symm⟩

end Words

/-! ## All places -/

theorem bijOn_index? (side : Nat) :
    Set.BijOn (fun cell : Nat × Nat => index? side cell.1 cell.2)
      {cell | cell.1 ≤ cell.2 ∧ cell.2 < side} (some '' Set.Iio (side * (side + 1) / 2)) := by
  refine ⟨?_, ?_, ?_⟩
  · rintro ⟨first, last⟩ ⟨ordered, below⟩
    have isPlace := index?_eq_some ordered below
    exact ⟨_, index?_lt_size isPlace, isPlace.symm⟩
  · rintro ⟨first, last⟩ ⟨ordered, below⟩ ⟨first', last'⟩ - same
    have isPlace := index?_eq_some ordered below
    obtain ⟨rfl, rfl⟩ := index?_inj isPlace (same.symm.trans isPlace)
    rfl
  · rintro _ ⟨index, inside, rfl⟩
    rw [Set.mem_Iio, ← rowStart_side] at inside
    obtain ⟨first, last, isPlace⟩ := exists_index? (Nat.le_refl side) inside
    exact ⟨(first, last), (inside_of_index? isPlace).1, isPlace⟩

/-- **The cells of a triangle and the places of its sequence correspond, row by row.**  Among the
integers, where a difference may be negative and a half may be lost, the place of a cell is given
by the same formula; and no value on the way is too large for a word of 64 bits as long as twice
the number of all cells is not. -/
theorem places_row_by_row :
    (∀ tokens : List Word,
      (Chart.blank tokens).cells.cells.size = tokens.length * (tokens.length + 1) / 2) ∧
    (∀ side : Nat,
      Set.BijOn (fun cell : Nat × Nat => index? side cell.1 cell.2)
        {cell | cell.1 ≤ cell.2 ∧ cell.2 < side} (some '' Set.Iio (side * (side + 1) / 2)) ∧
      (∀ first last, ¬ (first ≤ last ∧ last < side) → index? side first last = none) ∧
      (∀ first last first' last' index index', index? side first last = some index →
        index? side first' last' = some index' →
          (index < index' ↔ first < first' ∨ first = first' ∧ last < last')) ∧
      ∀ first last index : Nat, index? side first last = some index →
        0 ≤ (2 * side - first : Int) ∧ 0 ≤ (last - first : Int) ∧
          Even (first * (2 * side - first + 1) : Int) ∧
          (index : Int) = first * (2 * side - first + 1) / 2 + (last - first)) ∧
    ∀ side first last : UInt64, side.toNat * (side.toNat + 1) < UInt64.size →
      ∃ place, wordIndex? side first last = some place ∧
        place.map UInt64.toNat = index? side.toNat first.toNat last.toNat := by
  refine ⟨fun tokens => (Chart.blank tokens).cells.size_cells, fun side => ?_,
    fun _ _ _ => wordIndex?_eq⟩
  exact ⟨bijOn_index? side, fun _ _ => index?_eq_none, fun _ _ _ _ _ _ => index?_lt_iff,
    fun _ _ _ => exact_of_index?⟩

/-- The longest side that fits, at its very last cell and where its second row follows the
first. -/
theorem places_row_by_row_longest :
    4294967295 * (4294967295 + 1) < UInt64.size ∧
      (∃ place, wordIndex? 4294967295 4294967294 4294967294 = some place ∧
        place.map UInt64.toNat = some 9223372034707292159) ∧
      ¬ (1 ≤ 0 ∧ 0 < 4294967295) ∧ index? 4294967295 1 0 = none ∧
      index? 4294967295 0 4294967294 = some 4294967294 ∧
      index? 4294967295 1 1 = some 4294967295 ∧
      (4294967294 < 4294967295 ↔ 0 < 1 ∨ 0 = 1 ∧ 4294967294 < 1) ∧
      Even (1 * (2 * 4294967295 - 1 + 1) : Int) := by
  obtain ⟨-, places, inWords⟩ := places_row_by_row
  obtain ⟨-, outside, ordered, exactly⟩ := places 4294967295
  have fits : 4294967295 * (4294967295 + 1) < UInt64.size := by decide
  have corner : index? 4294967295 4294967294 4294967294 = some 9223372034707292159 := by decide
  have firstRow : index? 4294967295 0 4294967294 = some 4294967294 := by decide
  have secondRow : index? 4294967295 1 1 = some 4294967295 := by decide
  refine ⟨fits, corner ▸ inWords 4294967295 4294967294 4294967294 fits, by decide,
    outside 1 0 (by decide), firstRow, secondRow, ordered _ _ _ _ _ _ firstRow secondRow,
    (exactly 1 1 4294967295 secondRow).2.2.1⟩

/-- On the next side a product is too large. -/
example : wordIndex? 4294967296 4294967295 4294967295 = none := by decide

end PhraseChart.Triangle
