/-
# PhraseChart.Sampling.Sampler -- random sentences of a grammar

A sentence is drawn by drawing a derivation from the top: each nonterminal takes
one of its rules by an even choice.  From half of the permitted depth on, a
nonterminal that has lexical rules chooses among these only, so that recursive
rules do not go on for ever.  A derivation that would still be deeper than
`maxDepth` is refused, and so is one that reaches a nonterminal without rules.

The left half of a binary rule is drawn before the right half.

`Permitted` describes the trees whose words the sampler can return without a source
of words: derivations that are not deeper than permitted and in which, from half of
the permitted depth on, every nonterminal that has a lexical rule is a leaf.
-/
import PhraseChart.Grammar.Derivation
import PhraseChart.Sampling.Choice

namespace PhraseChart.Sampling

set_option autoImplicit false

/-- Why no sentence was drawn. -/
inductive Failure where
  | undefinedNonterminal (name : Nonterminal)
  | depthExceeded (maxDepth : Nat)
  /-- The source yielded no word that a choice could accept. -/
  | noAcceptedWord
deriving DecidableEq, Repr

def Failure.message : Failure → String
  | .undefinedNonterminal symbol => "No definition for nonterminal `" ++ symbol.name ++ "`"
  | .depthExceeded maxDepth => "Derivation did not finish within depth " ++ toString maxDepth
  | .noAcceptedWord => "The source of random words gave out"

/-- The right-hand sides to choose from at a depth: the lexical ones alone from half of
`maxDepth` on, if there are any. -/
def alternatives (rules : RuleSet) (maxDepth depth : Nat) (symbol : Nonterminal) : List Rhs :=
  let all := (rules.rulesFor symbol).map Rule.rhs
  let lexical := all.filter Rhs.isLexical
  if maxDepth / 2 ≤ depth ∧ lexical ≠ [] then lexical else all

section Draw

variable {σ : Type} (source : Source σ)

/-- An even choice among the alternatives of a symbol; nothing is read when it has none. -/
def chooseRhs (symbol : Nonterminal) (alternatives : List Rhs) : EStateM Failure σ Rhs :=
  fun state =>
    if h : 0 < alternatives.length then
      match source.choose h state with
      | (some index, state) => .ok alternatives[index] state
      | (none, state) => .error .noAcceptedWord state
    else .error (.undefinedNonterminal symbol) state

theorem mem_of_chooseRhs {symbol : Nonterminal} {alternatives : List Rhs} {state after : σ}
    {rhs : Rhs} (h : chooseRhs source symbol alternatives state = .ok rhs after) :
    rhs ∈ alternatives := by
  unfold chooseRhs at h
  split at h
  · split at h
    · simp only [EStateM.Result.ok.injEq] at h
      exact h.1 ▸ List.getElem_mem _
    · simp at h
  · simp at h

/-- A derivation tree of at most `remaining` levels, whose root stands that far above
`maxDepth`. -/
def drawTree (rules : RuleSet) (maxDepth : Nat) : Nat → Nonterminal → EStateM Failure σ Tree
  | 0, _ => throw (.depthExceeded maxDepth)
  | remaining + 1, symbol => do
      let depth := maxDepth - (remaining + 1)
      match ← chooseRhs source symbol (alternatives rules maxDepth depth symbol) with
      | .lexical word => return .leaf symbol word
      | .binary left right =>
          let leftTree ← drawTree rules maxDepth remaining left
          let rightTree ← drawTree rules maxDepth remaining right
          return .branch symbol leftTree rightTree

/-- The words of a random derivation from a symbol. -/
def sentence (rules : RuleSet) (maxDepth : Nat) (symbol : Nonterminal) :
    EStateM Failure σ (List Word) :=
  Tree.words <$> drawTree source rules maxDepth maxDepth symbol

end Draw

/-! ### What may be drawn -/

def HasLexicalRule (rules : RuleSet) (symbol : Nonterminal) : Prop :=
  ∃ word, { lhs := symbol, rhs := .lexical word } ∈ rules.toList

/-- Every branch at a distance of at least `half` carries a symbol without lexical rules.
Distances are counted from a root that lies `depth` levels above this tree. -/
def EndsEarly (rules : RuleSet) (half : Nat) : (depth : Nat) → Tree → Prop
  | _, .leaf _ _ => True
  | depth, .branch label left right =>
      (half ≤ depth → ¬ HasLexicalRule rules label) ∧
        EndsEarly rules half (depth + 1) left ∧ EndsEarly rules half (depth + 1) right

/-- A derivation from `symbol` that the sampler may draw. -/
structure Permitted (rules : RuleSet) (maxDepth : Nat) (symbol : Nonterminal) (tree : Tree) :
    Prop where
  label_eq : tree.label = symbol
  isDerivation : tree.IsDerivation rules
  depth_le : tree.depth ≤ maxDepth
  endsEarly : EndsEarly rules (maxDepth / 2) 0 tree

end PhraseChart.Sampling
