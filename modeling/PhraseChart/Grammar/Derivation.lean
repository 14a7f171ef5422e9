/-
# PhraseChart.Grammar.Derivation -- what a grammar derives

The same notion in four forms, none of which mentions a chart:

* `Tree.IsDerivation`: every node of a tree follows a rule;
* `Rewrites` and `Derives`: the rewriting relation on sentential forms, in which
  nonterminals and words are told apart;
* `LeftmostDerivation`: the sequences of rules that rewrite, at each step, the
  leftmost nonterminal of a form;
* `derivations`: the trees over a span of a sentence, listed by recursion without a
  table and without shared nodes.  A word has one leaf for each nonterminal that
  rewrites to it, and a longer span has one branch for each split, each derivation
  of the left part, each derivation of the right part and each rule that rewrites to
  their labels, in that order.  A part is derived again for every phrase that holds
  it, so this takes exponential time; a chart lists the same trees.
-/
import PhraseChart.Grammar.RuleSet
import PhraseChart.Tree

namespace PhraseChart

set_option autoImplicit false

/-- Every leaf and every branch of the tree follows a rule. -/
def Tree.IsDerivation (rules : RuleSet) : Tree → Prop
  | .leaf label word => { lhs := label, rhs := .lexical word } ∈ rules.toList
  | .branch label left right =>
      { lhs := label, rhs := .binary left.label right.label } ∈ rules.toList ∧
        left.IsDerivation rules ∧ right.IsDerivation rules

/-! ### Sentential forms -/

/-- One place of a sentential form. -/
inductive FormItem where
  | nonterminal (symbol : Nonterminal)
  | word (word : Word)
deriving DecidableEq, Repr

abbrev Form := List FormItem

def Rhs.form : Rhs → Form
  | .lexical word => [.word word]
  | .binary left right => [.nonterminal left, .nonterminal right]

/-- One occurrence of a nonterminal is rewritten by a rule. -/
inductive Rewrites (rules : RuleSet) : Form → Form → Prop
  | apply (before after : Form) (rule : Rule) : rule ∈ rules.toList →
      Rewrites rules (before ++ .nonterminal rule.lhs :: after) (before ++ rule.rhs.form ++ after)

/-- Any number of rewriting steps. -/
inductive Derives (rules : RuleSet) : Form → Form → Prop
  | refl (form : Form) : Derives rules form form
  | head {form next last : Form} : Rewrites rules form next → Derives rules next last →
      Derives rules form last

/-- The rules in the list rewrite the form into the words, each applied to the leftmost
nonterminal that is left. -/
inductive LeftmostDerivation (rules : RuleSet) : List Rule → Form → List Word → Prop
  | done : LeftmostDerivation rules [] [] []
  | word {steps : List Rule} {form : Form} {words : List Word} (word : Word) :
      LeftmostDerivation rules steps form words →
      LeftmostDerivation rules steps (.word word :: form) (word :: words)
  | rewrite {steps : List Rule} {form : Form} {words : List Word} (rule : Rule) :
      rule ∈ rules.toList →
      LeftmostDerivation rules steps (rule.rhs.form ++ form) words →
      LeftmostDerivation rules (rule :: steps) (.nonterminal rule.lhs :: form) words

/-! ### Trees over a span -/

/-- The branches over one derivation of each part. -/
def joinTrees (rules : RuleSet) (left right : Tree) : List Tree :=
  (rules.heads (.binary left.label right.label)).map fun label => .branch label left right

/-- The leaves over the word at a position, if the sentence reaches it. -/
def wordTrees (rules : RuleSet) (tokens : List Word) (position : Nat) : List Tree :=
  match tokens[position]? with
  | some word => (rules.heads (.lexical word)).map fun label => .leaf label word
  | none => []

/-- The derivations of the words from position `first` on, `extent` words beyond it. -/
def derivationsOver (rules : RuleSet) (tokens : List Word) : (first extent : Nat) → List Tree
  | first, 0 => wordTrees rules tokens first
  | first, extent + 1 =>
      (List.finRange (extent + 1)).flatMap fun (split : Fin (extent + 1)) =>
        (derivationsOver rules tokens first split.val).flatMap fun left =>
          (derivationsOver rules tokens (first + split.val + 1) (extent - split.val)).flatMap
            (joinTrees rules left)
termination_by _ extent => extent
decreasing_by all_goals omega

/-- The derivations of the words from `first` to `last`. -/
def derivations (rules : RuleSet) (tokens : List Word) (first last : Nat) : List Tree :=
  derivationsOver rules tokens first (last - first)

end PhraseChart
