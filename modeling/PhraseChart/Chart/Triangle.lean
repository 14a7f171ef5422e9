/-
# PhraseChart.Chart.Triangle -- one cell for each span of a sentence

The spans of a sentence of `side` words are the pairs `first ≤ last < side`.  A
triangle keeps a cell for each, row by row: the rows before `first` hold
`side`, `side - 1`, ..., `side - first + 1` cells, which are
`first * (2 * side - first + 1) / 2` together (`rowStart`).

* `index?_lt_size`: every pair has its place inside the sequence of cells;
* `index?_inj`: different pairs have different places;
* `get?_set_self`, `get?_set_ne`: replacing one cell changes that cell only.
-/

namespace PhraseChart

set_option autoImplicit false

structure Triangle (α : Type) where
  side : Nat
  cells : Array α
  size_cells : cells.size = side * (side + 1) / 2

namespace Triangle

/-- The number of cells in the rows before `first`. -/
def rowStart (side first : Nat) : Nat := first * (2 * side - first + 1) / 2

/-- The place of a cell in the sequence of rows; `none` outside the triangle. -/
def index? (side first last : Nat) : Option Nat :=
  if first ≤ last ∧ last < side then some (rowStart side first + (last - first)) else none

variable {α : Type}

instance [DecidableEq α] : DecidableEq (Triangle α) := fun s t =>
  if h : s.side = t.side ∧ s.cells = t.cells then
    .isTrue (by cases s; cases t; simp_all)
  else .isFalse fun e => h (e ▸ ⟨rfl, rfl⟩)

/-- The triangle with the same content in every cell. -/
def replicate (side : Nat) (a : α) : Triangle α :=
  { side, cells := Array.replicate (side * (side + 1) / 2) a, size_cells := by simp }

def get? (t : Triangle α) (first last : Nat) : Option α :=
  (index? t.side first last).bind fun index => t.cells[index]?

/-- Replaces the content of one cell; outside the triangle there is none to replace. -/
def set (t : Triangle α) (first last : Nat) (a : α) : Triangle α :=
  match index? t.side first last with
  | none => t
  | some index =>
      { side := t.side
        cells := t.cells.setIfInBounds index a
        size_cells := by simp [t.size_cells] }

/-! ### Places -/

/-- A row holds one cell less than the row before it. -/
theorem rowStart_succ {side first : Nat} (h : first < side) :
    rowStart side (first + 1) = rowStart side first + (side - first) := by
  obtain ⟨d, rfl⟩ := Nat.exists_eq_add_of_lt h
  have grown : (first + 1) * (2 * (first + d + 1) - (first + 1) + 1) =
      first * (2 * (first + d + 1) - first + 1) + 2 * (d + 1) := by
    rw [show 2 * (first + d + 1) - (first + 1) + 1 = first + 2 * d + 2 by omega,
      show 2 * (first + d + 1) - first + 1 = first + 2 * d + 2 + 1 by omega]
    simp only [Nat.add_mul, Nat.mul_add, Nat.mul_one, Nat.one_mul]
    omega
  rw [rowStart, grown, Nat.add_mul_div_left _ _ (by decide), rowStart]
  omega

theorem rowStart_side (side : Nat) : rowStart side side = side * (side + 1) / 2 := by
  rw [rowStart, show 2 * side - side + 1 = side + 1 by omega]

/-- A row ends before every later row starts. -/
theorem rowStart_add_le {side first later : Nat} (h : first < later) (hLater : later ≤ side) :
    rowStart side first + (side - first) ≤ rowStart side later := by
  induction later with
  | zero => omega
  | succ row ih =>
      rw [rowStart_succ (by omega)]
      rcases Nat.lt_succ_iff_lt_or_eq.1 h with before | rfl
      · have := ih before (by omega)
        omega
      · exact Nat.le_refl _

theorem index?_eq_some {side first last : Nat} (h : first ≤ last) (hLast : last < side) :
    index? side first last = some (rowStart side first + (last - first)) := by
  simp [index?, h, hLast]

theorem index?_eq_none {side first last : Nat} (h : ¬ (first ≤ last ∧ last < side)) :
    index? side first last = none := by
  simp [index?, h]

theorem index?_lt_size {side first last index : Nat}
    (h : index? side first last = some index) : index < side * (side + 1) / 2 := by
  unfold index? at h
  split at h
  · rename_i inside
    have := rowStart_add_le (show first < side by omega) (Nat.le_refl side)
    rw [rowStart_side] at this
    simp only [Option.some.injEq] at h
    omega
  · simp at h

theorem index?_inj {side first last first' last' index : Nat}
    (h : index? side first last = some index) (h' : index? side first' last' = some index) :
    first = first' ∧ last = last' := by
  unfold index? at h h'
  split at h <;> split at h' <;> simp only [Option.some.injEq, reduceCtorEq] at h h'
  rename_i inside inside'
  rcases Nat.lt_trichotomy first first' with before | rfl | after
  · have := rowStart_add_le before (show first' ≤ side by omega)
    omega
  · omega
  · have := rowStart_add_le after (show first ≤ side by omega)
    omega

/-! ### Contents -/

@[simp]
theorem side_set (t : Triangle α) (first last : Nat) (a : α) :
    (t.set first last a).side = t.side := by
  unfold set
  split <;> rfl

theorem get?_replicate {side first last : Nat} (a : α) (h : first ≤ last) (hLast : last < side) :
    (replicate side a).get? first last = some a := by
  have place := index?_eq_some h hLast
  simp [get?, replicate, place, index?_lt_size place]

theorem get?_set_self {t : Triangle α} {first last : Nat} (a : α) (h : first ≤ last)
    (hLast : last < t.side) : (t.set first last a).get? first last = some a := by
  have place := index?_eq_some h hLast
  have inside := index?_lt_size place
  simp only [get?, side_set, place, Option.bind_some]
  simp [set, place, t.size_cells, inside]

theorem get?_set_ne {t : Triangle α} {first last first' last' : Nat} (a : α)
    (h : ¬ (first = first' ∧ last = last')) :
    (t.set first last a).get? first' last' = t.get? first' last' := by
  simp only [get?, side_set]
  cases place' : index? t.side first' last' with
  | none => rfl
  | some index' =>
      unfold set
      split
      · rfl
      · rename_i index place
        have apart : index ≠ index' := fun e => h (index?_inj (e ▸ place) place')
        simp [Array.getElem?_setIfInBounds, apart]

theorem get?_eq_none {t : Triangle α} {first last : Nat}
    (h : ¬ (first ≤ last ∧ last < t.side)) : t.get? first last = none := by
  simp [get?, index?_eq_none h]

end Triangle

end PhraseChart
