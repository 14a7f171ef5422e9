/-
# PhraseChart.Proofs.Sampling.Source -- reading a source of words

A choice reads words of its source one after another, so the states it can leave behind are those
that lie some words ahead (`Reaches`).  It fails when none of the words that it is patient for is
accepted (`choose_eq_none_iff`); a source lasts from a state on when this happens nowhere ahead
(`LastsFrom`).  Zeros last, since the word zero is accepted by every choice (`lastsFrom_zeros`).
-/
import Mathlib.Logic.Function.Iterate
import PhraseChart.Sampling.Choice

namespace PhraseChart.Sampling

set_option autoImplicit false

namespace Source

variable {σ : Type} {source : Source σ} {state between after : σ} {n : Nat}

/-! ## Words ahead -/

/-- The state after one word. -/
def skip (source : Source σ) (state : σ) : σ := (source.next state).2

/-- The word that is read after `count` others. -/
def wordAt (source : Source σ) (count : Nat) (state : σ) : UInt32 :=
  (source.next (source.skip^[count] state)).1

/-- One state lies some words ahead of another. -/
def Reaches (source : Source σ) (state after : σ) : Prop :=
  ∃ count, source.skip^[count] state = after

theorem Reaches.refl (source : Source σ) (state : σ) : source.Reaches state state := ⟨0, rfl⟩

theorem Reaches.trans (first : source.Reaches state between) (rest : source.Reaches between after) :
    source.Reaches state after := by
  obtain ⟨count, rfl⟩ := first
  obtain ⟨more, rfl⟩ := rest
  exact ⟨more + count, Function.iterate_add_apply _ _ _ _⟩

/-- Wherever the source is ahead of `state`, every choice finds a word that it accepts. -/
def LastsFrom (source : Source σ) (state : σ) : Prop :=
  ∀ after, source.Reaches state after → ∀ n (positive : 0 < n),
    (source.choose positive after).1 ≠ none

theorem LastsFrom.ahead (lasts : source.LastsFrom state) (reached : source.Reaches state after) :
    source.LastsFrom after :=
  fun _ further => lasts _ (reached.trans further)

/-! ## Choices -/

theorem draw_eq_none_iff (positive : 0 < n) (limit : Nat) (state : σ) :
    (draw source.next positive limit state).1 = none ↔
      ∀ count < limit, accepts n (source.wordAt count state) = false := by
  induction limit generalizing state with
  | zero => simp [draw]
  | succ limit ih =>
      have shift (count : Nat) :
          source.wordAt (count + 1) state = source.wordAt count (source.skip state) := rfl
      rw [Nat.forall_lt_succ_left, draw]
      simp only [shift, ← ih]
      by_cases accepted : accepts n (source.next state).1 = true
      · simp [accepted, wordAt]
      · simp [accepted, wordAt, skip]

/-- A choice fails when it accepts none of the words that it is patient for. -/
theorem choose_eq_none_iff (positive : 0 < n) (state : σ) :
    (source.choose positive state).1 = none ↔
      ∀ count < source.patience, accepts n (source.wordAt count state) = false :=
  draw_eq_none_iff positive _ state

theorem reaches_draw (positive : 0 < n) (limit : Nat) (state : σ) :
    source.Reaches state (draw source.next positive limit state).2 := by
  induction limit generalizing state with
  | zero => exact .refl source state
  | succ limit ih =>
      have one : source.Reaches state (source.next state).2 := ⟨1, rfl⟩
      rw [draw]
      by_cases accepted : accepts n (source.next state).1 = true
      · simpa [accepted] using one
      · simpa [accepted] using one.trans (ih _)

theorem reaches_choose (positive : 0 < n) (state : σ) :
    source.Reaches state (source.choose positive state).2 :=
  reaches_draw positive _ state

/-! ## A source that lasts -/

theorem accepts_zero (n : Nat) : accepts n 0 = true := by simp [accepts]

/-- The word zero for ever. -/
def zeros : Source Unit := { next := fun state => (0, state), patience := 1 }

/-- Every choice takes the first zero that it reads. -/
theorem lastsFrom_zeros : zeros.LastsFrom () := by
  intro after _ n positive gaveOut
  have refused := (choose_eq_none_iff positive after).1 gaveOut 0 Nat.one_pos
  rw [show zeros.wordAt 0 after = 0 from rfl, accepts_zero] at refused
  cases refused

end Source

end PhraseChart.Sampling
