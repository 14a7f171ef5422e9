/-
# PhraseChart.Proofs.Grammar.Leftmost -- trees, leftmost derivations and rewriting

Three ways to say that a nonterminal derives words, and how they fit:

* a derivation tree is the same thing as a leftmost derivation from its root
  (`leftmost_iff_exists_tree`): its rules in preorder, `Tree.steps`, are the steps of
  the derivation, and they determine the tree (`Tree.steps_injective`);
* a form rewrites to words in any order just when it does so leftmost
  (`derives_iff_exists_leftmost`);
* `LeftmostDerivation`, which consumes the words of a form as it goes, agrees with
  `LeftmostRun`, the chain of single steps each of which rewrites the first
  nonterminal after a run of words (`leftmostDerivation_iff_run`).

All of them rest on one fact: leftmost derivations of two forms side by side are the
leftmost derivations of the two, one after the other (`LeftmostDerivation.append`,
`LeftmostDerivation.split`).
-/
import PhraseChart.Grammar.Derivation

namespace PhraseChart

set_option autoImplicit false

variable {rules : RuleSet}

/-! ## Forms side by side -/

namespace LeftmostDerivation

variable {steps more : List Rule} {form rest : Form} {words others : List Word}

theorem append (h : LeftmostDerivation rules steps form words)
    (next : LeftmostDerivation rules more rest others) :
    LeftmostDerivation rules (steps ++ more) (form ++ rest) (words ++ others) := by
  induction h with
  | done => exact next
  | word word _ ih => exact .word word ih
  | rewrite rule member _ ih =>
      refine .rewrite rule member ?_
      rwa [List.append_assoc] at ih

theorem split (h : LeftmostDerivation rules steps (form ++ rest) words) :
    ∃ steps₁ steps₂ words₁ words₂, steps = steps₁ ++ steps₂ ∧ words = words₁ ++ words₂ ∧
      LeftmostDerivation rules steps₁ form words₁ ∧
      LeftmostDerivation rules steps₂ rest words₂ := by
  generalize whole : form ++ rest = both at h
  -- A rewriting step lengthens the first form, so the induction is on the derivation.
  induction h generalizing form with
  | done =>
      obtain ⟨rfl, rfl⟩ := List.append_eq_nil_iff.1 whole
      exact ⟨[], [], [], [], rfl, rfl, .done, .done⟩
  | @word steps tail words word derived ih =>
      cases form with
      | nil =>
          obtain rfl : rest = .word word :: tail := whole
          exact ⟨[], steps, [], word :: words, rfl, rfl, .done, .word word derived⟩
      | cons item form =>
          obtain ⟨rfl, same⟩ := List.cons.inj whole
          obtain ⟨steps₁, steps₂, words₁, words₂, rfl, rfl, first, second⟩ := ih same
          exact ⟨steps₁, steps₂, word :: words₁, words₂, rfl, rfl, .word word first, second⟩
  | @rewrite steps tail words rule member derived ih =>
      cases form with
      | nil =>
          obtain rfl : rest = .nonterminal rule.lhs :: tail := whole
          exact ⟨[], rule :: steps, [], words, rfl, rfl, .done, .rewrite rule member derived⟩
      | cons item form =>
          obtain ⟨rfl, rfl⟩ := List.cons.inj whole
          have regrouped : (rule.rhs.form ++ form) ++ rest = rule.rhs.form ++ (form ++ rest) :=
            List.append_assoc ..
          obtain ⟨steps₁, steps₂, words₁, words₂, rfl, rfl, first, second⟩ := ih regrouped
          exact ⟨rule :: steps₁, steps₂, words₁, words₂, rfl, rfl,
            .rewrite rule member first, second⟩

theorem of_words (rules : RuleSet) (words : List Word) :
    LeftmostDerivation rules [] (words.map .word) words := by
  induction words with
  | nil => exact .done
  | cons word rest ih => exact .word word ih

end LeftmostDerivation

/-! ## Trees and leftmost derivations -/

/-- The rules at the nodes of a tree, each node before the nodes below it. -/
def Tree.steps : Tree → List Rule
  | .leaf label word => [⟨label, .lexical word⟩]
  | .branch label left right =>
      ⟨label, .binary left.label right.label⟩ :: (left.steps ++ right.steps)

theorem Tree.leftmost_steps {tree : Tree} (h : tree.IsDerivation rules) :
    LeftmostDerivation rules tree.steps [.nonterminal tree.label] tree.words := by
  induction tree with
  | leaf label word => exact .rewrite _ h (.word word .done)
  | branch label left right leftIh rightIh =>
      obtain ⟨member, leftFollows, rightFollows⟩ := h
      exact .rewrite _ member ((leftIh leftFollows).append (rightIh rightFollows))

/-- The steps of a tree say where they end and which tree they belong to. -/
theorem Tree.steps_append_inj {tree other : Tree} {more rest : List Rule}
    (h : tree.steps ++ more = other.steps ++ rest) : tree = other ∧ more = rest := by
  induction tree generalizing other more rest with
  | leaf label word =>
      cases other with
      | leaf label' word' => simpa [steps] using h
      | branch label' left' right' => simp [steps] at h
  | branch label left right leftIh rightIh =>
      cases other with
      | leaf label' word' => simp [steps] at h
      | branch label' left' right' =>
          simp only [steps, List.cons_append, List.append_assoc, List.cons.injEq,
            Rule.mk.injEq] at h
          obtain ⟨⟨rfl, -⟩, below⟩ := h
          obtain ⟨rfl, onTheRight⟩ := leftIh below
          obtain ⟨rfl, same⟩ := rightIh onTheRight
          exact ⟨rfl, same⟩

theorem Tree.steps_injective : Function.Injective Tree.steps := by
  intro tree other same
  have ended : tree.steps ++ [] = other.steps ++ [] := by rw [same]
  exact (Tree.steps_append_inj ended).1

/-- **A leftmost derivation from a nonterminal is a derivation tree.** -/
theorem leftmost_iff_exists_tree {steps : List Rule} {symbol : Nonterminal} {words : List Word} :
    LeftmostDerivation rules steps [.nonterminal symbol] words ↔
      ∃ tree : Tree, tree.label = symbol ∧ tree.words = words ∧ tree.IsDerivation rules ∧
        tree.steps = steps := by
  constructor
  · intro h
    induction size : steps.length using Nat.strongRecOn generalizing steps symbol words with
    | _ size ih =>
        cases h with
        | @rewrite steps _ _ rule member derived =>
            obtain ⟨lhs, rhs⟩ := rule
            rw [List.length_cons] at size
            cases rhs with
            | lexical word =>
                cases derived with
                | word _ ended =>
                    cases ended
                    exact ⟨.leaf lhs word, rfl, rfl, member, rfl⟩
            | binary left right =>
                have pair : LeftmostDerivation rules steps
                    ([.nonterminal left] ++ [.nonterminal right]) words := derived
                obtain ⟨steps₁, steps₂, words₁, words₂, rfl, rfl, first, second⟩ := pair.split
                rw [List.length_append] at size
                obtain ⟨l, rfl, rfl, leftFollows, rfl⟩ := ih _ (by omega) first rfl
                obtain ⟨r, rfl, rfl, rightFollows, rfl⟩ := ih _ (by omega) second rfl
                exact ⟨.branch lhs l r, rfl, rfl, ⟨member, leftFollows, rightFollows⟩, rfl⟩
  · rintro ⟨tree, rfl, rfl, follows, rfl⟩
    exact tree.leftmost_steps follows

/-! ## Rewriting in any order -/

theorem Rewrites.append_left {form next : Form} (h : Rewrites rules form next) (front : Form) :
    Rewrites rules (front ++ form) (front ++ next) := by
  cases h with
  | apply before after rule member =>
      have moved := Rewrites.apply (front ++ before) after rule member
      simpa only [List.append_assoc] using moved

theorem Derives.append_left {form last : Form} (h : Derives rules form last) (front : Form) :
    Derives rules (front ++ form) (front ++ last) := by
  induction h with
  | refl form => exact .refl _
  | head step _ ih => exact .head (step.append_left front) ih

theorem LeftmostDerivation.derives {steps : List Rule} {form : Form} {words : List Word}
    (h : LeftmostDerivation rules steps form words) : Derives rules form (words.map .word) := by
  induction h with
  | done => exact .refl []
  | word word _ ih => exact ih.append_left [.word word]
  | rewrite rule member _ ih => exact .head (.apply [] _ rule member) ih

/-- A step anywhere in a form can be put where a leftmost derivation takes it. -/
theorem exists_leftmost_of_rewrites {form next : Form} {words : List Word} {steps : List Rule}
    (h : Rewrites rules form next) (derived : LeftmostDerivation rules steps next words) :
    ∃ steps', LeftmostDerivation rules steps' form words := by
  cases h with
  | apply before after rule member =>
      obtain ⟨steps₁, steps₂, words₁, words₂, rfl, rfl, first, ending⟩ := derived.split
      obtain ⟨steps₃, steps₄, words₃, words₄, rfl, rfl, front, middle⟩ := first.split
      have rewritten : LeftmostDerivation rules (rule :: steps₄) [.nonterminal rule.lhs] words₄ :=
        .rewrite rule member (by simpa using middle)
      have whole := front.append (rewritten.append ending)
      rw [← List.append_assoc words₃] at whole
      exact ⟨_, whole⟩

/-- **A form rewrites to words just when it does so leftmost.** -/
theorem derives_iff_exists_leftmost {form : Form} {words : List Word} :
    Derives rules form (words.map .word) ↔ ∃ steps, LeftmostDerivation rules steps form words := by
  constructor
  · intro h
    generalize ended : words.map FormItem.word = last at h
    induction h with
    | refl form =>
        subst ended
        exact ⟨[], .of_words rules words⟩
    | head step _ ih =>
        obtain ⟨steps, derived⟩ := ih ended
        exact exists_leftmost_of_rewrites step derived
  · rintro ⟨steps, h⟩
    exact h.derives

/-! ## Step by step -/

/-- The first nonterminal of a form, after a run of words, is rewritten by the rule. -/
inductive LeftmostStep (rules : RuleSet) : Rule → Form → Form → Prop
  | apply (words : List Word) (after : Form) (rule : Rule) : rule ∈ rules.toList →
      LeftmostStep rules rule (words.map .word ++ .nonterminal rule.lhs :: after)
        (words.map .word ++ rule.rhs.form ++ after)

/-- The rules in the list lead from form to form, one leftmost step each. -/
inductive LeftmostRun (rules : RuleSet) : List Rule → Form → Form → Prop
  | nil (form : Form) : LeftmostRun rules [] form form
  | cons {rule : Rule} {steps : List Rule} {form next last : Form} :
      LeftmostStep rules rule form next → LeftmostRun rules steps next last →
      LeftmostRun rules (rule :: steps) form last

theorem LeftmostRun.cons_word {steps : List Rule} {form last : Form}
    (h : LeftmostRun rules steps form last) (word : Word) :
    LeftmostRun rules steps (.word word :: form) (.word word :: last) := by
  induction h with
  | nil form => exact .nil _
  | cons step _ ih =>
      cases step with
      | apply words after _ member => exact .cons (.apply (word :: words) after _ member) ih

theorem LeftmostDerivation.of_words_append {steps : List Rule} {form : Form}
    {front words : List Word} (h : LeftmostDerivation rules steps (front.map .word ++ form) words) :
    ∃ others, words = front ++ others ∧ LeftmostDerivation rules steps form others := by
  induction front generalizing words with
  | nil => exact ⟨words, rfl, h⟩
  | cons word front ih =>
      cases h with
      | word _ h =>
          obtain ⟨others, rfl, derived⟩ := ih h
          exact ⟨others, rfl, derived⟩

theorem leftmostDerivation_iff_run {steps : List Rule} {form : Form} {words : List Word} :
    LeftmostDerivation rules steps form words ↔
      LeftmostRun rules steps form (words.map .word) := by
  constructor
  · intro h
    induction h with
    | done => exact .nil []
    | word word _ ih => exact ih.cons_word word
    | rewrite rule member _ ih => exact .cons (.apply [] _ rule member) ih
  · intro h
    generalize ended : words.map FormItem.word = last at h
    induction h with
    | nil form =>
        subst ended
        exact .of_words rules words
    | cons step _ ih =>
        cases step with
        | apply front after _ member =>
            have derived := ih ended
            rw [List.append_assoc] at derived
            obtain ⟨others, rfl, beyond⟩ := derived.of_words_append
            exact (LeftmostDerivation.of_words rules front).append (.rewrite _ member beyond)

end PhraseChart
