/-
# PhraseChart.Grammar.Rule -- the rules of a grammar in Chomsky normal form

A rule rewrites one nonterminal, either to a single word of the language or to
two nonterminals.  Nonterminals and words are different types, so a word that
happens to be spelled like a nonterminal is never rewritten.

Names are opaque: two nonterminals are equal when their characters are, with no
case folding and no normalization, and they are ordered by their code points
(`Nonterminal.le`), which is the order of their UTF-8 bytes.
-/

namespace PhraseChart

/-- A word of the language: one token of a sentence. -/
abbrev Word := String

/-- A symbol that rules rewrite, and the label of a phrase in a parse. -/
structure Nonterminal where
  name : String
deriving DecidableEq, Hashable, Repr

namespace Nonterminal

instance : ToString Nonterminal := ⟨name⟩

/-- The order of names by code points, the first difference deciding. -/
def le (a b : Nonterminal) : Bool := decide (a.name ≤ b.name)

/-- Names in their order; equal names stay as they came. -/
def sort (names : List Nonterminal) : List Nonterminal := names.mergeSort le

theorem eq_of_toList {a b : Nonterminal} (same : a.name.toList = b.name.toList) : a = b := by
  cases a
  cases b
  exact congrArg mk (String.toList_inj.1 same)

end Nonterminal

/-- What a rule rewrites its left-hand side to. -/
inductive Rhs where
  | lexical (word : Word)
  | binary (left right : Nonterminal)
deriving DecidableEq, Hashable, Repr

namespace Rhs

/-- One name stands for a word and two for nonterminals; no other number of
names is a right-hand side in this normal form. -/
def ofNames? : List String → Option Rhs
  | [word] => some (.lexical word)
  | [left, right] => some (.binary ⟨left⟩ ⟨right⟩)
  | _ => none

def isLexical : Rhs → Bool
  | .lexical _ => true
  | .binary _ _ => false

/-- The word of a lexical right-hand side. -/
def word? : Rhs → Option Word
  | .lexical word => some word
  | .binary _ _ => none

/-- The nonterminals of a right-hand side, from left to right. -/
def nonterminals : Rhs → List Nonterminal
  | .lexical _ => []
  | .binary left right => [left, right]

/-- Words are written between double quotes, nonterminals bare. -/
def render : Rhs → String
  | .lexical word => "\"" ++ word ++ "\""
  | .binary left right => left.name ++ " " ++ right.name

end Rhs

/-- One way to rewrite one nonterminal. -/
structure Rule where
  lhs : Nonterminal
  rhs : Rhs
deriving DecidableEq, Hashable, Repr

namespace Rule

def isLexical (rule : Rule) : Bool := rule.rhs.isLexical

def render (rule : Rule) : String := rule.lhs.name ++ " -> " ++ rule.rhs.render

end Rule

end PhraseChart
