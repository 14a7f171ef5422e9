/-
# PhraseChart.Chart -- all derivations of all phrases of a sentence

The chart of a sentence has a cell for each span `first ≤ last`, and the cell lists
every derivation of the words of that span, as nodes of one shared forest.

The cells are filled from the shortest spans to the longest, and among spans of
one length from left to right (`spans`).  A span of one word gets a leaf for
each nonterminal that rewrites to the word.  A longer span is split in every
way, the shortest left part first, and at each split the phrases of the two
parts are joined.  Cells of parts are complete when a split reads them, so one
pass fills the chart.

The derivations of the whole sentence are the roots; a symbol's parses are the
trees of the roots that carry it.
-/
import PhraseChart.Chart.Triangle
import PhraseChart.Forest.Composition

namespace PhraseChart

set_option autoImplicit false

structure Chart where
  tokens : List Word
  cells : Triangle (List NodeId)
  forest : Forest
deriving DecidableEq

/-- Why a sentence has no chart. -/
inductive ParseError where
  | emptySentence
deriving DecidableEq, Repr

def ParseError.message : ParseError → String
  | .emptySentence => "Cannot parse an empty sentence"

namespace Chart

/-! ### Filling -/

/-- The spans of `length + 1` words, from left to right. -/
def spansOfLength (side length : Nat) : List Span :=
  (List.range (side - length)).map fun first => ⟨first, first + length⟩

/-- All spans of a sentence of `side` words, the shortest first, then from left to right. -/
def spans (side : Nat) : List Span := (List.range side).flatMap (spansOfLength side)

/-- The chart of a sentence before any cell is filled. -/
def blank (tokens : List Word) : Chart :=
  { tokens, cells := .replicate tokens.length [], forest := .empty }

/-- The places where a span can be split: each names the last word of the left part. -/
def splits (span : Span) : List Nat := List.range' span.first (span.last - span.first)

/-- The ids in a cell; none outside the triangle. -/
def idsIn (cells : Triangle (List NodeId)) (first last : Nat) : List NodeId :=
  (cells.get? first last).getD []

/-- Leaves for the word at a position. -/
def wordNodes (rules : RuleSet) (tokens : List Word) (f : Forest) (position : Nat) :
    List NodeId × Forest :=
  match tokens[position]? with
  | some word => f.addLeaves (rules.heads (.lexical word)) position
  | none => ([], f)

/-- Branches for the splits of a span whose parts have their cells filled. -/
def phraseNodes (rules : RuleSet) (cells : Triangle (List NodeId)) (f : Forest) (span : Span) :
    List NodeId × Forest :=
  let joined := (splits span).foldl
    (fun joined split =>
      joined.joinAll rules (idsIn cells span.first split) (idsIn cells (split + 1) span.last))
    (Composition.start f)
  (joined.ids.toList, joined.forest)

/-- Fills the cell of one span. -/
def fill (rules : RuleSet) : Chart → Span → Chart
  | { tokens, cells, forest }, span =>
      let (ids, forest) :=
        if span.first = span.last then wordNodes rules tokens forest span.first
        else phraseNodes rules cells forest span
      { tokens, cells := cells.set span.first span.last ids, forest }

/-- The chart with all its cells filled. -/
def ofTokens (rules : RuleSet) (tokens : List Word) : Chart :=
  (spans tokens.length).foldl (fill rules) (blank tokens)

/-- The chart of a sentence of at least one word. -/
def parse (rules : RuleSet) (tokens : List Word) : Except ParseError Chart :=
  if tokens.isEmpty then .error .emptySentence else .ok (ofTokens rules tokens)

theorem parse_of_ne_nil {rules : RuleSet} {tokens : List Word} (h : tokens ≠ []) :
    parse rules tokens = .ok (ofTokens rules tokens) := by
  simp [parse, h]

/-- The spans that are filled are the pairs inside the triangle. -/
theorem mem_spans {side : Nat} {span : Span} :
    span ∈ spans side ↔ span.first ≤ span.last ∧ span.last < side := by
  simp only [spans, spansOfLength, List.mem_flatMap, List.mem_range, List.mem_map]
  constructor
  · rintro ⟨length, _, first, _, rfl⟩
    exact ⟨by simp, by simp only; omega⟩
  · rintro ⟨ordered, inside⟩
    exact ⟨span.last - span.first, by omega, span.first, by omega, by cases span; simp_all⟩

@[simp]
theorem tokens_fill (rules : RuleSet) (c : Chart) (span : Span) :
    (fill rules c span).tokens = c.tokens := rfl

@[simp]
theorem side_fill (rules : RuleSet) (c : Chart) (span : Span) :
    (fill rules c span).cells.side = c.cells.side := by
  simp [fill]

/-- Filling one cell leaves all other cells as they are. -/
theorem get?_fill_ne {rules : RuleSet} {c : Chart} {span : Span} {first last : Nat}
    (h : ¬ (span.first = first ∧ span.last = last)) :
    (fill rules c span).cells.get? first last = c.cells.get? first last :=
  Triangle.get?_set_ne _ h

theorem tokens_ofTokens (rules : RuleSet) (tokens : List Word) :
    (ofTokens rules tokens).tokens = tokens := by
  have keeps (pending : List Span) (c : Chart) : (pending.foldl (fill rules) c).tokens = c.tokens := by
    induction pending generalizing c with
    | nil => rfl
    | cons span _ ih => rw [List.foldl_cons, ih, tokens_fill]
  exact keeps _ _

theorem side_ofTokens (rules : RuleSet) (tokens : List Word) :
    (ofTokens rules tokens).cells.side = tokens.length := by
  have keeps (pending : List Span) (c : Chart) :
      (pending.foldl (fill rules) c).cells.side = c.cells.side := by
    induction pending generalizing c with
    | nil => rfl
    | cons span _ ih => rw [List.foldl_cons, ih, side_fill]
  exact keeps _ _

/-! ### Reading -/

/-- The number of words. -/
def size (c : Chart) : Nat := c.tokens.length

/-- The ids in a cell; `none` outside the triangle. -/
def cell? (c : Chart) (first last : Nat) : Option (List NodeId) := c.cells.get? first last

/-- The ids in a cell; none outside the triangle. -/
def ids (c : Chart) (first last : Nat) : List NodeId := idsIn c.cells first last

def node? (c : Chart) (id : NodeId) : Option Node := c.forest.get? id

/-- The tree below a node of the chart. -/
def tree? (c : Chart) (id : NodeId) : Option Tree := c.forest.tree? c.tokens id

/-- The labels of the nodes in a cell. -/
def labels (c : Chart) (first last : Nat) : List Nonterminal :=
  (c.ids first last).filterMap fun id => (c.node? id).map Node.label

/-- The derivations of the whole sentence. -/
def roots (c : Chart) : List NodeId := c.ids 0 (c.size - 1)

def isDerivable (c : Chart) : Bool := !c.roots.isEmpty

def hasLabel (c : Chart) (symbol : Nonterminal) (id : NodeId) : Bool :=
  (c.node? id).any fun node => node.label == symbol

/-- Whether the whole sentence has a derivation from the symbol. -/
def derives (c : Chart) (symbol : Nonterminal) : Bool := c.roots.any (c.hasLabel symbol)

/-- The trees of all derivations of the whole sentence. -/
def trees (c : Chart) : List Tree := c.roots.filterMap c.tree?

/-- The trees of the derivations of the whole sentence from a symbol. -/
def parses (c : Chart) (symbol : Nonterminal) : List Tree :=
  (c.roots.filter (c.hasLabel symbol)).filterMap c.tree?

/-- The words that no rule rewrites to, with their positions. -/
def unknownWords (c : Chart) : List (Nat × Word) :=
  (c.tokens.zipIdx.filter fun (_, position) => (c.ids position position).isEmpty).map
    fun (word, position) => (position, word)

/-- All cells with their spans, the shortest first. -/
def allCells (c : Chart) : List (Span × List NodeId) :=
  (spans c.size).map fun span => (span, c.ids span.first span.last)

end Chart

end PhraseChart
