/-
# PhraseChart.Proofs.Sampling.Patience -- more patience changes no result

The patience of a source bounds how many words a choice reads before it gives up.  It is no part of
what the sampler draws: an action that has not given up does the same with more patience
(`Steady`).  Actions that follow one another are steady when each is, so a drawing is
(`steady_drawTree`).

Hence a sequence of words decides alone how a drawing ends.  Either some choice accepts none of the
words that follow, and gives up however patient it is, or there is one result that every patience
from some bound on gives (`sentence_settles`).
-/
import PhraseChart.Proofs.Sampling.Failing

namespace PhraseChart.Sampling

set_option autoImplicit false

variable {rules : RuleSet} {maxDepth remaining : Nat} {symbol : Nonterminal}
variable {σ α β : Type} {next : σ → UInt32 × σ}

/-! ## Steady actions -/

/-- The result says that a choice gave up. -/
def GaveUp (result : EStateM.Result Failure σ α) : Prop :=
  ∃ after, result = .error .noAcceptedWord after

/-- Of an action at each patience: more patience makes a difference only where a choice gave up. -/
def Steady (action : Nat → EStateM Failure σ α) : Prop :=
  ∀ patience more, patience ≤ more → ∀ state, ¬ GaveUp (action patience state) →
    action more state = action patience state

theorem Steady.const (action : EStateM Failure σ α) : Steady fun _ => action :=
  fun _ _ _ _ _ => rfl

theorem Steady.bind {action : Nat → EStateM Failure σ α} {rest : Nat → α → EStateM Failure σ β}
    (first : Steady action) (each : ∀ result, Steady fun patience => rest patience result) :
    Steady fun patience => action patience >>= rest patience := by
  intro patience more le state kept
  change EStateM.bind (action more) (rest more) state =
    EStateM.bind (action patience) (rest patience) state
  change ¬ GaveUp (EStateM.bind (action patience) (rest patience) state) at kept
  unfold EStateM.bind at kept ⊢
  cases ran : action patience state with
  | error failure after =>
      rw [ran] at kept
      have stayed : ¬ GaveUp (action patience state) := by
        rintro ⟨_, gaveUp⟩
        cases ran.symm.trans gaveUp
        exact kept ⟨_, rfl⟩
      rw [first patience more le state stayed, ran]
  | ok result between =>
      rw [ran] at kept
      have stayed : ¬ GaveUp (action patience state) := by
        rintro ⟨_, gaveUp⟩
        cases ran.symm.trans gaveUp
      rw [first patience more le state stayed, ran]
      exact each result patience more le between kept

/-! ## The sampler -/

theorem draw_of_le {n limit more : Nat} (positive : 0 < n) (le : limit ≤ more) (state : σ)
    (accepted : (Source.draw next positive limit state).1 ≠ none) :
    Source.draw next positive more state = Source.draw next positive limit state := by
  induction limit generalizing more state with
  | zero => exact absurd rfl accepted
  | succ limit ih =>
      obtain ⟨more, rfl⟩ : ∃ less, more = less + 1 := ⟨more - 1, by omega⟩
      rw [Source.draw] at accepted ⊢
      rw [Source.draw]
      by_cases here : accepts n (next state).1 = true
      · simp only [here, if_true]
      · simp only [here, Bool.false_eq_true, if_false] at accepted ⊢
        exact ih (by omega) _ accepted

theorem steady_chooseRhs (alternatives : List Rhs) :
    Steady fun patience => chooseRhs ⟨next, patience⟩ symbol alternatives := by
  intro patience more le state kept
  dsimp only at kept ⊢
  rw [chooseRhs] at kept ⊢
  rw [chooseRhs]
  split
  · rename_i positive
    rw [dif_pos positive] at kept
    have same : (Source.mk next more).choose positive state =
        (Source.mk next patience).choose positive state := by
      refine draw_of_le positive le state fun gaveUp => kept ?_
      cases chose : (Source.mk next patience).choose positive state with
      | mk index after =>
          obtain rfl : index = none := (congrArg Prod.fst chose).symm.trans gaveUp
          exact ⟨after, rfl⟩
    rw [same]
  · rfl

theorem steady_drawTree :
    Steady fun patience => drawTree ⟨next, patience⟩ rules maxDepth remaining symbol := by
  induction remaining generalizing symbol with
  | zero => exact .const _
  | succ remaining ih =>
      refine (steady_chooseRhs _).bind fun rhs => ?_
      cases rhs with
      | lexical word => exact .const _
      | binary left right => exact ih.bind fun _ => ih.bind fun _ => .const _

theorem steady_sentence :
    Steady fun patience => sentence ⟨next, patience⟩ rules maxDepth symbol := by
  unfold sentence
  simp only [map_eq_pure_bind]
  exact steady_drawTree.bind fun _ => .const _

/-- **A sequence of words settles a drawing in a closed rule set**, or the drawing gives up however
patient it is. -/
theorem sentence_settles (indexed : rules.Indexed) (closed : rules.Closed)
    (defined : rules.defines symbol = true) (next : σ → UInt32 × σ) (state : σ) :
    (∀ patience, ∃ after,
      sentence ⟨next, patience⟩ rules maxDepth symbol state = .error .noAcceptedWord after) ∨
    ∃ patience,
      (∃ words after, ∀ more, patience ≤ more →
        sentence ⟨next, more⟩ rules maxDepth symbol state = .ok words after) ∨
      ∃ after, ∀ more, patience ≤ more →
        sentence ⟨next, more⟩ rules maxDepth symbol state =
          .error (.depthExceeded maxDepth) after := by
  by_cases waits : ∀ patience,
      GaveUp (sentence ⟨next, patience⟩ rules maxDepth symbol state)
  · exact .inl waits
  · obtain ⟨patience, kept⟩ := not_forall.1 waits
    refine .inr ⟨patience, ?_⟩
    have same (more : Nat) (le : patience ≤ more) := steady_sentence patience more le state kept
    cases drawn : sentence ⟨next, patience⟩ rules maxDepth symbol state with
    | ok words after => exact .inl ⟨words, after, fun more le => (same more le).trans drawn⟩
    | error failure after =>
        rcases (safe_sentence indexed closed defined).excused drawn with rfl | ⟨rfl, -⟩
        · exact .inr ⟨after, fun more le => (same more le).trans drawn⟩
        · exact absurd ⟨after, drawn⟩ kept

end PhraseChart.Sampling
