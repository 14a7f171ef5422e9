/-
# PhraseChart.Proofs.Sampling.Failing -- why no sentence was drawn

`Safe` is what a part of the sampler may do with its source: it reads words, and then either gives
a result that meets a condition, or fails because of the depth, or because the source gave out.
Parts that follow one another are safe when each is (`Safe.bind`).  A choice is safe when there is
something to choose from (`safe_chooseRhs`).

A rule set is closed when every nonterminal that a rule uses has a rule (`RuleSet.Closed`).  From a
nonterminal that has one, the sampler then reaches only others that have one, so by induction over
the levels each of its choices has alternatives (`safe_drawTree`).  Hence it never fails for want of
a definition, and over a source that lasts only by the depth.
-/
import PhraseChart.Proofs.Sampling.Drawing
import PhraseChart.Proofs.Sampling.Source

namespace PhraseChart.Sampling

set_option autoImplicit false

variable {rules : RuleSet} {maxDepth depth remaining : Nat} {symbol : Nonterminal}
variable {σ α β : Type} {source : Source σ} {state : σ}

/-- The failures from a state that neither the grammar nor the sampler is to blame for. -/
def Excused (source : Source σ) (maxDepth : Nat) (state : σ) (failure : Failure) : Prop :=
  failure = .depthExceeded maxDepth ∨ failure = .noAcceptedWord ∧ ¬ source.LastsFrom state

theorem Excused.of_ahead {between : σ} {failure : Failure}
    (excused : Excused source maxDepth between failure) (reached : source.Reaches state between) :
    Excused source maxDepth state failure :=
  excused.imp_right fun gaveOut => ⟨gaveOut.1, fun lasts => gaveOut.2 (lasts.ahead reached)⟩

/-! ## Safe actions -/

/-- From every state, the action reads words and gives a result that meets `post`, or its failure
is excused. -/
def Safe (source : Source σ) (maxDepth : Nat) (action : EStateM Failure σ α) (post : α → Prop) :
    Prop :=
  ∀ state, match action state with
    | .ok result after => source.Reaches state after ∧ post result
    | .error failure after => source.Reaches state after ∧ Excused source maxDepth state failure

theorem Safe.pure {result : α} {post : α → Prop} (holds : post result) :
    Safe source maxDepth (pure result) post :=
  fun state => ⟨.refl source state, holds⟩

theorem Safe.bind {action : EStateM Failure σ α} {next : α → EStateM Failure σ β}
    {between : α → Prop} {post : β → Prop} (first : Safe source maxDepth action between)
    (rest : ∀ result, between result → Safe source maxDepth (next result) post) :
    Safe source maxDepth (action >>= next) post := by
  intro state
  have begun := first state
  change match EStateM.bind action next state with
    | .ok result after => _
    | .error failure after => _
  unfold EStateM.bind
  cases ran : action state with
  | error failure after =>
      rw [ran] at begun
      exact begun
  | ok result chosen =>
      rw [ran] at begun
      obtain ⟨reached, holds⟩ := begun
      have continued := rest result holds chosen
      dsimp only
      cases ended : next result chosen with
      | ok result after =>
          rw [ended] at continued
          exact ⟨reached.trans continued.1, continued.2⟩
      | error failure after =>
          rw [ended] at continued
          exact ⟨reached.trans continued.1, continued.2.of_ahead reached⟩

theorem Safe.map {action : EStateM Failure σ α} {before : α → Prop} {post : β → Prop} {f : α → β}
    (safe : Safe source maxDepth action before)
    (holds : ∀ result, before result → post (f result)) :
    Safe source maxDepth (f <$> action) post := by
  rw [map_eq_pure_bind]
  exact safe.bind fun result meets => .pure (holds result meets)

theorem Safe.excused {action : EStateM Failure σ α} {post : α → Prop} {failure : Failure}
    {after : σ} (safe : Safe source maxDepth action post)
    (failed : action state = .error failure after) : Excused source maxDepth state failure := by
  have outcome := safe state
  rw [failed] at outcome
  exact outcome.2

/-! ## The sampler -/

/-- A choice among some alternatives takes one of them, unless the source gives out. -/
theorem safe_chooseRhs {alternatives : List Rhs} (some_ : alternatives ≠ []) :
    Safe source maxDepth (chooseRhs source symbol alternatives) (· ∈ alternatives) := by
  intro state
  have positive := List.length_pos_iff.2 some_
  have reached := source.reaches_choose positive state
  rw [chooseRhs, dif_pos positive]
  cases chose : source.choose positive state with
  | mk index after =>
      rw [chose] at reached
      cases index with
      | some index => exact ⟨reached, List.getElem_mem _⟩
      | none =>
          have gaveOut : ¬ source.LastsFrom state := fun lasts =>
            lasts state (.refl source state) _ positive (by rw [chose])
          exact ⟨reached, .inr ⟨rfl, gaveOut⟩⟩

/-- A nonterminal that is defined has alternatives at every depth. -/
theorem alternatives_ne_nil (indexed : rules.Indexed) (defined : rules.defines symbol = true) :
    alternatives rules maxDepth depth symbol ≠ [] := by
  obtain ⟨⟨lhs, rhs⟩, isRule, rfl⟩ := indexed.defines_iff.1 defined
  have all : (rules.rulesFor lhs).map Rule.rhs ≠ [] :=
    List.ne_nil_of_mem ((mem_map_rhs_rulesFor indexed).2 isRule)
  rw [alternatives]
  split
  · rename_i late
    exact late.2
  · exact all

/-- A drawing from a nonterminal that is defined is safe, when all that are used are defined. -/
theorem safe_drawTree (indexed : rules.Indexed) (closed : rules.Closed)
    (defined : rules.defines symbol = true) :
    Safe source maxDepth (drawTree source rules maxDepth remaining symbol) fun _ => True := by
  induction remaining generalizing symbol with
  | zero => exact fun state => ⟨.refl source state, .inl rfl⟩
  | succ remaining ih =>
      refine (safe_chooseRhs (alternatives_ne_nil indexed defined)).bind fun rhs member => ?_
      obtain ⟨isRule, -⟩ := (mem_alternatives_iff indexed).1 member
      have used := closed _ isRule
      cases rhs with
      | lexical word => exact .pure trivial
      | binary left right =>
          have drawnLeft := ih (used left (by simp [Rhs.nonterminals]))
          have drawnRight := ih (used right (by simp [Rhs.nonterminals]))
          exact drawnLeft.bind fun _ _ => drawnRight.bind fun _ _ => .pure trivial

/-- **In a closed rule set a sentence is drawn, or the depth is exceeded or the source gave out.** -/
theorem safe_sentence (indexed : rules.Indexed) (closed : rules.Closed)
    (defined : rules.defines symbol = true) :
    Safe source maxDepth (sentence source rules maxDepth symbol) fun _ => True :=
  (safe_drawTree indexed closed defined).map fun _ _ => trivial

end PhraseChart.Sampling
