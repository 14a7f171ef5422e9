/-
# PhraseChart.Proofs.Sampling.Grounded -- where each nonterminal has a word, sentences are short

A rule set is grounded when every nonterminal that a binary rule uses has a lexical rule.  From a
nonterminal that has one, the sampler then never comes to another, so from half of the permitted
depth on it makes leaves only.  Hence a drawing that has gone down to that depth goes no deeper
(`exists_gives_drawTree`), and since half of a positive depth lies below it, the limit is never
reached, whatever the binary rules are.

A tree without branches from that depth on has at most two to the power of it leaves
(`length_words_le`).
-/
import Mathlib.Algebra.Group.Nat.Defs
import PhraseChart.Proofs.Sampling.Feeding

namespace PhraseChart.Sampling

set_option autoImplicit false

variable {rules : RuleSet} {maxDepth remaining half depth : Nat} {symbol : Nonterminal}
variable {σ : Type} {source : Source σ} {state after : σ} {tree : Tree}

/-- Every nonterminal on a right-hand side has a lexical rule. -/
def Grounded (rules : RuleSet) : Prop :=
  ∀ rule ∈ rules.toList, ∀ name ∈ rule.rhs.nonterminals, HasLexicalRule rules name

theorem Grounded.halves (grounded : Grounded rules) {left right : Nonterminal}
    (isRule : ⟨symbol, .binary left right⟩ ∈ rules.toList) :
    HasLexicalRule rules left ∧ HasLexicalRule rules right :=
  ⟨grounded _ isRule left (by simp [Rhs.nonterminals]),
    grounded _ isRule right (by simp [Rhs.nonterminals])⟩

/-- A nonterminal with a lexical rule has alternatives. -/
theorem HasLexicalRule.alternatives_ne_nil (indexed : rules.Indexed)
    (lexical : HasLexicalRule rules symbol) : alternatives rules maxDepth depth symbol ≠ [] := by
  obtain ⟨word, isRule⟩ := lexical
  exact Sampling.alternatives_ne_nil indexed (indexed.defines_iff.2 ⟨_, isRule, rfl⟩)

/-! ## The number of words -/

/-- **A derivation that ends early has few words**: each level above the half at most doubles
them. -/
theorem length_words_le (grounded : Grounded rules) (follows : tree.IsDerivation rules)
    (lexical : HasLexicalRule rules tree.label) (early : EndsEarly rules half depth tree) :
    tree.words.length ≤ 2 ^ (half - depth) := by
  induction tree generalizing depth with
  | leaf label word => exact Nat.one_le_two_pow
  | branch label left right ihLeft ihRight =>
      obtain ⟨isRule, leftFollows, rightFollows⟩ := follows
      obtain ⟨leftLexical, rightLexical⟩ := grounded.halves isRule
      obtain ⟨here, leftEarly, rightEarly⟩ := early
      have above : depth < half := Nat.lt_of_not_le fun late => here late lexical
      have fewLeft := ihLeft leftFollows leftLexical leftEarly
      have fewRight := ihRight rightFollows rightLexical rightEarly
      have doubles : 2 ^ (half - depth) = 2 ^ (half - (depth + 1)) * 2 := by
        rw [← Nat.pow_succ]
        congr 1
        omega
      rw [Tree.words, List.length_append, doubles]
      omega

/-! ## The end of a drawing -/

/-- **A drawing that is fed ends** if it begins no deeper than half of the permitted depth. -/
theorem exists_gives_drawTree (indexed : rules.Indexed) (grounded : Grounded rules)
    (positive : 0 < maxDepth) (inside : remaining ≤ maxDepth)
    (above : maxDepth - remaining ≤ maxDepth / 2) (lexical : HasLexicalRule rules symbol)
    (fed : IsFed source rules maxDepth remaining symbol state) :
    ∃ tree after, Gives (fun patience =>
      drawTree ⟨source.next, patience⟩ rules maxDepth remaining symbol) state tree after := by
  induction remaining generalizing symbol state with
  | zero => omega
  | succ remaining ih =>
      obtain ⟨rhs, member, chosen, chose⟩ :=
        exists_gives_chooseRhs (lexical.alternatives_ne_nil indexed) (fed _ _ .root)
      obtain ⟨isRule, early⟩ := (mem_alternatives_iff indexed).1 member
      cases rhs with
      | lexical word =>
          exact ⟨.leaf symbol word, chosen, chose.bind (.pure _ chosen)⟩
      | binary left right =>
          -- A branch stands above the half, so its halves stand no deeper than that.
          have notLate : ¬ maxDepth / 2 ≤ maxDepth - (remaining + 1) := fun late => by
            simpa [Rhs.isLexical] using early late lexical
          obtain ⟨leftLexical, rightLexical⟩ := grounded.halves isRule
          obtain ⟨leftTree, between, drawnLeft⟩ := ih (by omega) (by omega) leftLexical
            fun choices here comes => fed choices here (.left chose comes)
          obtain ⟨rightTree, after, drawnRight⟩ := ih (by omega) (by omega) rightLexical
            fun choices here comes => fed choices here (.right chose drawnLeft comes)
          exact ⟨.branch symbol leftTree rightTree, after,
            chose.bind (drawnLeft.bind (drawnRight.bind (.pure _ after)))⟩

/-- **In a grounded rule set every drawing that is fed gives a short sentence**, however recursive
the binary rules are.  With less patience than that takes, it gives the same sentence or gives up. -/
theorem sentence_grounded (inserted : List Rule) (maxDepth : Nat) (positive : 0 < maxDepth)
    (symbol : Nonterminal) (lexical : HasLexicalRule (.ofList inserted) symbol)
    (grounded : Grounded (.ofList inserted)) {σ : Type} (source : Source σ) (state : σ)
    (fed : IsFed source (.ofList inserted) maxDepth maxDepth symbol state) :
    ∃ words after, words.length ≤ 2 ^ (maxDepth / 2) ∧
      (∃ patience, ∀ more, patience ≤ more →
        sentence ⟨source.next, more⟩ (.ofList inserted) maxDepth symbol state = .ok words after) ∧
      ∀ patience,
        sentence ⟨source.next, patience⟩ (.ofList inserted) maxDepth symbol state =
            .ok words after ∨
          ∃ later, sentence ⟨source.next, patience⟩ (.ofList inserted) maxDepth symbol state =
            .error .noAcceptedWord later := by
  have indexed := RuleSet.indexed_ofList inserted
  obtain ⟨tree, after, patience, drawn⟩ := exists_gives_drawTree indexed grounded positive
    (Nat.le_refl _) (by omega) lexical fed
  obtain ⟨rfl, follows, -, early⟩ := permitted_of_drawTree indexed (Nat.le_refl _)
    (drawn patience (Nat.le_refl _))
  have few := length_words_le grounded follows lexical early
  rw [Nat.sub_self] at few
  have enough (more : Nat) (le : patience ≤ more) :
      sentence ⟨source.next, more⟩ (.ofList inserted) maxDepth tree.label state =
        .ok tree.words after :=
    map_eq_ok_iff.2 ⟨tree, drawn more le, rfl⟩
  refine ⟨tree.words, after, few, ⟨patience, enough⟩, fun less => ?_⟩
  by_cases gaveUp : GaveUp
      (sentence ⟨source.next, less⟩ (.ofList inserted) maxDepth tree.label state)
  · exact .inr gaveUp
  · have same := steady_sentence less (max less patience) (Nat.le_max_left ..) state gaveUp
    exact .inl (same.symm.trans (enough _ (Nat.le_max_right ..)))

/-- Either nonterminal leads back to both. -/
def entangled : List Rule :=
  [⟨⟨"S"⟩, .binary ⟨"S"⟩ ⟨"N"⟩⟩, ⟨⟨"S"⟩, .lexical "go"⟩, ⟨⟨"N"⟩, .binary ⟨"N"⟩ ⟨"S"⟩⟩,
    ⟨⟨"N"⟩, .lexical "on"⟩]

theorem sentence_grounded_entangled :
    0 < 5 ∧ HasLexicalRule (.ofList entangled) ⟨"S"⟩ ∧ Grounded (.ofList entangled) ∧
      IsFed Source.zeros (.ofList entangled) 5 5 ⟨"S"⟩ () ∧
      ∃ words after, words.length ≤ 4 ∧ ∃ patience, ∀ more, patience ≤ more →
        sentence ⟨Source.zeros.next, more⟩ (.ofList entangled) 5 ⟨"S"⟩ () = .ok words after := by
  have hasLexical (name : Nonterminal) (either : name = ⟨"S"⟩ ∨ name = ⟨"N"⟩) :
      HasLexicalRule (.ofList entangled) name := by
    rcases either with rfl | rfl
    · exact ⟨"go", by simp [RuleSet.mem_toList_ofList, entangled]⟩
    · exact ⟨"on", by simp [RuleSet.mem_toList_ofList, entangled]⟩
  have uses : ∀ rule ∈ entangled, ∀ name ∈ rule.rhs.nonterminals,
      name = ⟨"S"⟩ ∨ name = ⟨"N"⟩ := by decide
  have grounded : Grounded (.ofList entangled) := fun rule member name used =>
    hasLexical name (uses rule (RuleSet.mem_toList_ofList.1 member) name used)
  have start := hasLexical ⟨"S"⟩ (.inl rfl)
  have fed : IsFed Source.zeros (.ofList entangled) 5 5 ⟨"S"⟩ () :=
    isFed_of_lastsFrom Source.lastsFrom_zeros
  obtain ⟨words, after, short, drawn, -⟩ :=
    sentence_grounded entangled 5 (by decide) ⟨"S"⟩ start grounded _ _ fed
  exact ⟨by decide, start, grounded, fed, words, after, short, drawn⟩

end PhraseChart.Sampling
