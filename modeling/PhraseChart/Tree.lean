/-
# PhraseChart.Tree -- parse trees

A parse tree is a leaf, which labels one word, or a branch, which labels two
adjacent phrases.  Its yield `words` is the sentence that it analyses.  A tree is
written on one line with brackets (`render`), or as an outline with one node per line,
two blanks deeper for each level (`renderOutline`).
-/
import PhraseChart.Grammar.Rule

namespace PhraseChart

set_option autoImplicit false

inductive Tree where
  | leaf (label : Nonterminal) (word : Word)
  | branch (label : Nonterminal) (left right : Tree)
deriving DecidableEq, Repr

namespace Tree

def label : Tree → Nonterminal
  | .leaf label _ => label
  | .branch label _ _ => label

/-- The words at the leaves, from left to right. -/
def words : Tree → List Word
  | .leaf _ word => [word]
  | .branch _ left right => left.words ++ right.words

/-- The number of nodes on the longest way from the root to a leaf. -/
def depth : Tree → Nat
  | .leaf _ _ => 1
  | .branch _ left right => max left.depth right.depth + 1

def render : Tree → String
  | .leaf label word => "(" ++ label.name ++ " " ++ word ++ ")"
  | .branch label left right =>
      "(" ++ label.name ++ " " ++ left.render ++ " " ++ right.render ++ ")"

def indentation (level : Nat) : String := String.ofList (List.replicate (2 * level) ' ')

/-- The lines of the outline of a tree whose root stands at `level`. -/
def outline (level : Nat) : Tree → List String
  | .leaf label word => [indentation level ++ label.name ++ " \"" ++ word ++ "\""]
  | .branch label left right =>
      (indentation level ++ label.name) :: (left.outline (level + 1) ++ right.outline (level + 1))

def renderOutline (tree : Tree) : String := String.join ((tree.outline 0).map (· ++ "\n"))

theorem words_ne_nil (tree : Tree) : tree.words ≠ [] := by
  induction tree with
  | leaf => simp [words]
  | branch _ _ _ left _ => simp [words, left]

end Tree

end PhraseChart
