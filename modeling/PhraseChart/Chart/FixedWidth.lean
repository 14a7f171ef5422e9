/-
# PhraseChart.Chart.FixedWidth -- the places of cells in words of 64 bits

`Triangle.index?` computes the place of a cell with natural numbers.  Here the same steps are
taken with words of 64 bits.  A step has a result only if the exact result is such a word: a sum
or a product must not be too large, and a difference must not be below zero.
-/
import PhraseChart.Chart.Triangle

namespace PhraseChart

set_option autoImplicit false

/-! ### Exact operations -/

namespace FixedWidth

/-- The word of 64 bits that stands for a number. -/
def ofNat? (n : Nat) : Option UInt64 := if n < UInt64.size then some (.ofNat n) else none

def add? (a b : UInt64) : Option UInt64 := ofNat? (a.toNat + b.toNat)

def mul? (a b : UInt64) : Option UInt64 := ofNat? (a.toNat * b.toNat)

def sub? (a b : UInt64) : Option UInt64 := if b ≤ a then some (a - b) else none

section Exact

variable {a b : UInt64}

theorem exists_ofNat?_eq {n : Nat} (fits : n < UInt64.size) :
    ∃ word, ofNat? n = some word ∧ word.toNat = n :=
  ⟨.ofNat n, if_pos fits, UInt64.toNat_ofNat_of_lt' fits⟩

theorem exists_add?_eq (fits : a.toNat + b.toNat < UInt64.size) :
    ∃ word, add? a b = some word ∧ word.toNat = a.toNat + b.toNat :=
  exists_ofNat?_eq fits

theorem exists_mul?_eq (fits : a.toNat * b.toNat < UInt64.size) :
    ∃ word, mul? a b = some word ∧ word.toNat = a.toNat * b.toNat :=
  exists_ofNat?_eq fits

theorem exists_sub?_eq (ordered : b.toNat ≤ a.toNat) :
    ∃ word, sub? a b = some word ∧ word.toNat = a.toNat - b.toNat := by
  rw [← UInt64.le_iff_toNat_le] at ordered
  exact ⟨a - b, if_pos ordered, UInt64.toNat_sub_of_le a b ordered⟩

end Exact

end FixedWidth

/-! ### Places -/

namespace Triangle

open FixedWidth

/-- The number of cells in the rows before `first`; `none` if a value on the way is not a word. -/
def wordRowStart? (side first : UInt64) : Option UInt64 := do
  let doubled ← mul? 2 side
  let shortened ← sub? doubled first
  let factor ← add? shortened 1
  let product ← mul? first factor
  return product / 2

/-- The place of a cell, or that there is no such cell; `none` if a value on the way is not a
word. -/
def wordIndex? (side first last : UInt64) : Option (Option UInt64) :=
  if first ≤ last ∧ last < side then do
    let before ← wordRowStart? side first
    let offset ← sub? last first
    let place ← add? before offset
    return some place
  else return none

end Triangle

end PhraseChart
