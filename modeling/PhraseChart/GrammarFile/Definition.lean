/-
# PhraseChart.GrammarFile.Definition -- what one line of a grammar file defines

A rule line defines one nonterminal by one or more alternatives, divided by bars;
an alternative is a pair of names or one quoted word.  `Definition.ofTokens` checks
the opening of the line before its alternatives, and the alternatives from left
to right, so that the first thing that is wrong is the one reported.
-/
import PhraseChart.Grammar.Rule
import PhraseChart.GrammarFile.Fault
import PhraseChart.GrammarFile.Token

namespace PhraseChart

set_option autoImplicit false

/-- Alternatives for one nonterminal. -/
structure Definition where
  lhs : Nonterminal
  alternatives : List Rhs
deriving DecidableEq, Repr

namespace Definition

/-- The right-hand side that the tokens between two bars stand for. -/
def alternative : List Token → Except Fault Rhs
  | [.name left, .name right] => .ok (.binary ⟨left⟩ ⟨right⟩)
  | [.quoted word] =>
      if word.isEmpty then .error .emptyWord
      else if word.toList.any Text.isBlank then .error (.blankInWord word)
      else .ok (.lexical word)
  | [] => .error .emptyAlternative
  | tokens =>
      if tokens.contains .equals then .error .unexpectedEquals
      else if tokens.contains .bar then .error .unsplitAlternatives
      else .error (.notNormalForm (" ".intercalate (tokens.map Token.render)))

/-- All alternatives, or the fault of the first that has one. -/
def alternatives? : List (List Token) → Except Fault (List Rhs)
  | [] => .ok []
  | tokens :: rest =>
      match alternative tokens with
      | .error fault => .error fault
      | .ok rhs => (alternatives? rest).map (rhs :: ·)

def ofTokens : List Token → Except Fault Definition
  | [] => .error .noTokens
  | .name lhs :: .equals :: body =>
      (alternatives? (body.splitOn .bar)).map fun alternatives => { lhs := ⟨lhs⟩, alternatives }
  | .name _ :: _ => .error .missingEquals
  | _ => .error .missingNonterminal

def ofText (s : List Char) : Except Fault Definition :=
  match Token.scan s with
  | none => .error .unmatchedQuote
  | some tokens => ofTokens tokens

def rules (d : Definition) : List Rule := d.alternatives.map fun rhs => ⟨d.lhs, rhs⟩

/-- The names that the alternatives use, in the order of writing. -/
def used (d : Definition) : List Nonterminal := d.alternatives.flatMap Rhs.nonterminals

end Definition

end PhraseChart
