/-
# PhraseChart.Program.Trace -- trace lines

Trace lines tell how a grammar was loaded and how a chart was filled, and there are
five kinds of them.  Nothing is recorded on the way: they are read off the finished
grammar file and the finished chart, in the order in which the work was done.
-/
import PhraseChart.Chart
import PhraseChart.GrammarFile.Loading

namespace PhraseChart.Program.Trace

set_option autoImplicit false

/-! ### The five kinds -/

def repeatLine (path : String) (number : Nat) : String :=
  "bnf: " ++ ({ path, line := number } : Location).render ++ ": duplicate alternative ignored"

def loadedLine (path : String) (grammar : Grammar) : String :=
  "bnf: loaded " ++ toString grammar.rules.size ++ " rule(s) from " ++ path ++
    ", start symbol `" ++ grammar.start.name ++ "`"

def unknownLine (word : Word) (position : Nat) : String :=
  "chart: `" ++ word ++ "` at " ++ toString position ++ " is not in the lexicon"

def splitLine (span : Span) (split count : Nat) : String :=
  "chart: (" ++ toString span.first ++ ", " ++ toString span.last ++ ") split at " ++
    toString split ++ ": " ++ toString count ++ " derivation(s)"

def totalsLine (c : Chart) : String :=
  "chart: " ++ toString c.size ++ " token(s), " ++ toString c.forest.size ++ " node(s), " ++
    toString c.roots.length ++ " full derivation(s)"

/-! ### Finished work -/

/-- The alternatives that were written again, then the size of the grammar. -/
def loading (path : String) (entries : List GrammarFile.Entry) : List String :=
  (GrammarFile.repeats entries).map (repeatLine path) ++
    [loadedLine path (GrammarFile.grammar entries)]

/-- The number of nodes of a span whose left part ends at `split`. -/
def splitCount (c : Chart) (span : Span) (split : Nat) : Nat :=
  (c.ids span.first span.last).countP fun id =>
    match (c.node? id).bind Node.children? with
    | none => false
    | some (left, _) => (c.node? left).any fun node => node.span.last == split

/-- The splits of a span that gave a derivation, with their numbers. -/
def splitLines (c : Chart) (span : Span) : List String :=
  (Chart.splits span).filterMap fun split =>
    let count := splitCount c span split
    if count = 0 then none else some (splitLine span split count)

/-- The unknown words, then the splits of all spans, then the size of the chart. -/
def parsing (c : Chart) : List String :=
  (c.unknownWords.map fun (position, word) => unknownLine word position) ++
    (Chart.spans c.size).flatMap (splitLines c) ++ [totalsLine c]

end PhraseChart.Program.Trace
