/-
# PhraseChart.Proofs.Sampling.Feeding -- the choices that a drawing comes to

The words of a source decide how a drawing goes on, and so which choices it comes to.  `ComesTo`
follows a drawing from choice to choice, whatever the patience of the source: a choice or a drawing
that is over is one that `Gives` a result with enough patience.  A drawing is fed when each choice
that it comes to finds a word that it accepts (`IsFed`), and that is less than is asked of a source
that lasts (`isFed_of_lastsFrom`).

An action whose result does not depend on patience gives what it returns once
(`Steady.gives`), so a choice that is fed gives one of its alternatives (`exists_gives_chooseRhs`).
-/
import PhraseChart.Proofs.Sampling.Patience

namespace PhraseChart.Sampling

set_option autoImplicit false

variable {rules : RuleSet} {maxDepth remaining : Nat} {symbol : Nonterminal}
variable {σ α β : Type} {source : Source σ} {state between after here : σ}

/-! ## Results of enough patience -/

/-- Of an action at each patience: with enough of it, the action gives this result. -/
def Gives (action : Nat → EStateM Failure σ α) (state : σ) (result : α) (after : σ) : Prop :=
  ∃ patience, ∀ more, patience ≤ more → action more state = .ok result after

theorem Gives.pure (result : α) (state : σ) : Gives (fun _ => pure result) state result state :=
  ⟨0, fun _ _ => rfl⟩

theorem Gives.bind {action : Nat → EStateM Failure σ α} {rest : Nat → α → EStateM Failure σ β}
    {first : α} {result : β} (begins : Gives action state first between)
    (goesOn : Gives (fun patience => rest patience first) between result after) :
    Gives (fun patience => action patience >>= rest patience) state result after := by
  obtain ⟨patience, begins⟩ := begins
  obtain ⟨patience', goesOn⟩ := goesOn
  refine ⟨max patience patience', fun more le => bind_eq_ok_iff.2 ?_⟩
  exact ⟨first, between, begins more (by omega), goesOn more (by omega)⟩

theorem Steady.gives {action : Nat → EStateM Failure σ α} {patience : Nat} {result : α}
    (steady : Steady action) (returned : action patience state = .ok result after) :
    Gives action state result after := by
  refine ⟨patience, fun more le => (steady patience more le state ?_).trans returned⟩
  rintro ⟨_, gaveUp⟩
  cases returned.symm.trans gaveUp

/-! ## Choices -/

/-- A drawing from a symbol that begins at `state` comes to a choice among `choices` at `here`. -/
inductive ComesTo (source : Source σ) (rules : RuleSet) (maxDepth : Nat) :
    Nat → Nonterminal → σ → List Rhs → σ → Prop
  | root {remaining : Nat} {symbol : Nonterminal} {state : σ} :
      ComesTo source rules maxDepth (remaining + 1) symbol state
        (alternatives rules maxDepth (maxDepth - (remaining + 1)) symbol) state
  | left {remaining : Nat} {symbol left right : Nonterminal} {state chosen here : σ}
      {choices : List Rhs} :
      Gives (fun patience => chooseRhs ⟨source.next, patience⟩ symbol
        (alternatives rules maxDepth (maxDepth - (remaining + 1)) symbol))
        state (.binary left right) chosen →
      ComesTo source rules maxDepth remaining left chosen choices here →
      ComesTo source rules maxDepth (remaining + 1) symbol state choices here
  | right {remaining : Nat} {symbol left right : Nonterminal} {state chosen between here : σ}
      {choices : List Rhs} {leftTree : Tree} :
      Gives (fun patience => chooseRhs ⟨source.next, patience⟩ symbol
        (alternatives rules maxDepth (maxDepth - (remaining + 1)) symbol))
        state (.binary left right) chosen →
      Gives (fun patience => drawTree ⟨source.next, patience⟩ rules maxDepth remaining left)
        chosen leftTree between →
      ComesTo source rules maxDepth remaining right between choices here →
      ComesTo source rules maxDepth (remaining + 1) symbol state choices here

/-- Sooner or later the words of the source give each choice that the drawing comes to one that it
accepts.  The patience of the source plays no part. -/
def IsFed (source : Source σ) (rules : RuleSet) (maxDepth remaining : Nat) (symbol : Nonterminal)
    (state : σ) : Prop :=
  ∀ choices here, ComesTo source rules maxDepth remaining symbol state choices here →
    ∃ count, accepts choices.length (source.wordAt count here) = true

/-- A choice that is fed gives one of its alternatives. -/
theorem exists_gives_chooseRhs {choices : List Rhs} (some_ : choices ≠ [])
    (fed : ∃ count, accepts choices.length (source.wordAt count state) = true) :
    ∃ rhs ∈ choices, ∃ after,
      Gives (fun patience => chooseRhs ⟨source.next, patience⟩ symbol choices) state rhs after := by
  obtain ⟨count, accepted⟩ := fed
  have positive := List.length_pos_iff.2 some_
  -- Patience for the accepted word and those before it is enough.
  cases chose : (Source.mk source.next (count + 1)).choose positive state with
  | mk index after =>
      cases index with
      | none =>
          have refused := (Source.choose_eq_none_iff positive state).1 (congrArg Prod.fst chose)
            count (Nat.lt_succ_self count)
          cases accepted.symm.trans refused
      | some index =>
          have returned : chooseRhs ⟨source.next, count + 1⟩ symbol choices state =
              .ok choices[index] after := by
            rw [chooseRhs, dif_pos positive, chose]
          exact ⟨_, List.getElem_mem index.isLt, after, (steady_chooseRhs choices).gives returned⟩

/-! ## Sources that last -/

theorem reaches_chooseRhs {choices : List Rhs} {rhs : Rhs}
    (chose : chooseRhs source symbol choices state = .ok rhs after) :
    source.Reaches state after := by
  rw [chooseRhs] at chose
  split at chose
  · rename_i positive
    have reached := source.reaches_choose positive state
    split at chose <;> rename_i ended
    · obtain ⟨-, rfl⟩ := EStateM.Result.ok.inj chose
      rwa [ended] at reached
    · cases chose
  · cases chose

theorem reaches_drawTree {tree : Tree}
    (drawn : drawTree source rules maxDepth remaining symbol state = .ok tree after) :
    source.Reaches state after := by
  induction remaining generalizing symbol state after tree with
  | zero => cases drawn
  | succ remaining ih =>
      obtain ⟨rhs, chosen, chose, shape⟩ := drawTree_succ_eq_ok_iff.1 drawn
      have begun := reaches_chooseRhs chose
      rcases shape with ⟨_, -, -, rfl⟩ | ⟨left, right, _, _, between, -, drawnLeft, drawnRight, -⟩
      · exact begun
      · exact begun.trans ((ih drawnLeft).trans (ih drawnRight))

theorem reaches_of_gives_chooseRhs {choices : List Rhs} {rhs : Rhs}
    (chose : Gives (fun patience => chooseRhs ⟨source.next, patience⟩ symbol choices) state rhs
      after) : source.Reaches state after := by
  obtain ⟨patience, chose⟩ := chose
  exact @reaches_chooseRhs symbol σ ⟨source.next, patience⟩ _ _ _ _ (chose patience (Nat.le_refl _))

theorem reaches_of_gives_drawTree {tree : Tree}
    (drawn : Gives (fun patience => drawTree ⟨source.next, patience⟩ rules maxDepth remaining symbol)
      state tree after) : source.Reaches state after := by
  obtain ⟨patience, drawn⟩ := drawn
  exact @reaches_drawTree rules maxDepth remaining symbol σ ⟨source.next, patience⟩ _ _ _
    (drawn patience (Nat.le_refl _))

/-- Each choice lies ahead of where the drawing began. -/
theorem ComesTo.reaches {choices : List Rhs}
    (comes : ComesTo source rules maxDepth remaining symbol state choices here) :
    source.Reaches state here := by
  induction comes with
  | root => exact .refl source _
  | left chose _ ih => exact (reaches_of_gives_chooseRhs chose).trans ih
  | right chose drawn _ ih =>
      exact (reaches_of_gives_chooseRhs chose).trans ((reaches_of_gives_drawTree drawn).trans ih)

/-- A source that lasts feeds every drawing. -/
theorem isFed_of_lastsFrom (lasts : source.LastsFrom state) :
    IsFed source rules maxDepth remaining symbol state := by
  intro choices here comes
  rcases Nat.eq_zero_or_pos choices.length with none | positive
  · exact ⟨0, by rw [none]; simp [accepts]⟩
  · by_contra never
    refine lasts here comes.reaches _ positive ((Source.choose_eq_none_iff positive here).2 ?_)
    exact fun count _ => Bool.eq_false_iff.2 fun accepted => never ⟨count, accepted⟩

end PhraseChart.Sampling
