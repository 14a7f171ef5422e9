/-
# PhraseChart.Proofs.Tree.Outline -- a tree is known by its outline

Each line of an outline is indented, and whoever reads the lines from the top knows how far.  What
follows the blanks is a name up to the first space or to the end of the line: a space tells that the
node is a leaf, and its word, which may hold spaces and quotes, is what is left without the last
quote.  So a line determines its node, and the number of lines that belong to it follows from the
nodes, since a branch has two parts.

`outlineText_append_inj` states this for a tree in front of any text, which is what the induction
needs: the tree is determined, and so is the place where its outline ends.  Nothing is asked of
names and words but that names hold neither spaces nor line feeds, and words no line feeds.
-/
import Mathlib.Data.List.Basic
import PhraseChart.Tree

namespace PhraseChart.Tree

set_option autoImplicit false

/-- A name that stands on a line of its own and ends before the next space. -/
def FitsLine (label : Nonterminal) : Prop := ' ' ∉ label.name.toList ∧ '\n' ∉ label.name.toList

instance (label : Nonterminal) : Decidable (FitsLine label) := inferInstanceAs (Decidable (_ ∧ _))

/-- No name of the tree holds a space or a line feed, and no word a line feed. -/
def FitsLines : Tree → Prop
  | .leaf label word => FitsLine label ∧ '\n' ∉ word.toList
  | .branch label left right => FitsLine label ∧ left.FitsLines ∧ right.FitsLines

instance decidableFitsLines : (tree : Tree) → Decidable tree.FitsLines
  | .leaf label word => inferInstanceAs (Decidable (FitsLine label ∧ '\n' ∉ word.toList))
  | .branch label left right =>
      have := decidableFitsLines left
      have := decidableFitsLines right
      inferInstanceAs (Decidable (FitsLine label ∧ left.FitsLines ∧ right.FitsLines))

variable {level : Nat} {t u : Tree} {rest rest' : List Char}

/-! ## The text of an outline -/

/-- The lines of the outline of a tree whose root stands at `level`, each closed. -/
def outlineText (level : Nat) (tree : Tree) : List Char :=
  (tree.outline level).flatMap fun line => line.toList ++ ['\n']

theorem toList_renderOutline (tree : Tree) : tree.renderOutline.toList = tree.outlineText 0 := by
  simp [renderOutline, outlineText, List.flatMap_def, Function.comp_def]

theorem outlineText_leaf (level : Nat) (label : Nonterminal) (word : Word) (rest : List Char) :
    (leaf label word).outlineText level ++ rest =
      (indentation level).toList ++
        (label.name.toList ++ ' ' :: ('"' :: (word.toList ++ ['"']) ++ '\n' :: rest)) := by
  simp [outlineText, outline]

theorem outlineText_branch (level : Nat) (label : Nonterminal) (left right : Tree)
    (rest : List Char) :
    (branch label left right).outlineText level ++ rest =
      (indentation level).toList ++ (label.name.toList ++
        '\n' :: (left.outlineText (level + 1) ++ (right.outlineText (level + 1) ++ rest))) := by
  simp [outlineText, outline]

/-! ## Reading from the top -/

/-- Two texts that are cut at marks, neither of which stands before the other cut. -/
theorem append_cons_inj {α : Type} {before before' after after' : List α} {mark mark' : α}
    (free : mark' ∉ before) (free' : mark ∉ before')
    (same : before ++ mark :: after = before' ++ mark' :: after') :
    before = before' ∧ mark = mark' ∧ after = after' := by
  rcases List.append_eq_append_iff.1 same with ⟨between, rfl, cut⟩ | ⟨between, rfl, cut⟩
  · cases between with
    | nil =>
        obtain ⟨rfl, rfl⟩ := List.cons.inj cut
        exact ⟨(List.append_nil before).symm, rfl, rfl⟩
    | cons c _ =>
        obtain ⟨rfl, -⟩ := List.cons.inj cut
        simp at free'
  · cases between with
    | nil =>
        obtain ⟨rfl, rfl⟩ := List.cons.inj cut
        exact ⟨List.append_nil before', rfl, rfl⟩
    | cons c _ =>
        obtain ⟨rfl, -⟩ := List.cons.inj cut
        simp at free

/-- **A tree in front of a text is determined by its outline and the text together**, and so is the
place where the outline ends. -/
theorem outlineText_append_inj (ht : t.FitsLines) (hu : u.FitsLines)
    (same : t.outlineText level ++ rest = u.outlineText level ++ rest') : t = u ∧ rest = rest' := by
  induction t generalizing u level rest rest' with
  | leaf label word =>
      obtain ⟨⟨noSpace, noLine⟩, oneLine⟩ := ht
      cases u with
      | leaf label' word' =>
          obtain ⟨⟨noSpace', -⟩, oneLine'⟩ := hu
          rw [outlineText_leaf, outlineText_leaf, List.append_cancel_left_eq] at same
          obtain ⟨sameLabel, -, sameLine⟩ := append_cons_inj noSpace noSpace' same
          obtain ⟨sameWord, -, rfl⟩ := append_cons_inj (by simpa using oneLine)
            (by simpa using oneLine') sameLine
          obtain rfl := Nonterminal.eq_of_toList sameLabel
          obtain rfl : word = word' := by simpa [String.toList_inj] using sameWord
          exact ⟨rfl, rfl⟩
      | branch label' left' right' =>
          -- The name ends at a space on one side, and at the end of its line on the other.
          rw [outlineText_leaf, outlineText_branch, List.append_cancel_left_eq] at same
          cases (append_cons_inj noLine hu.1.1 same).2.1
  | branch label left right ihLeft ihRight =>
      obtain ⟨⟨noSpace, noLine⟩, leftFits, rightFits⟩ := ht
      cases u with
      | leaf label' word' =>
          rw [outlineText_leaf, outlineText_branch, List.append_cancel_left_eq] at same
          cases (append_cons_inj noSpace hu.1.2 same).2.1
      | branch label' left' right' =>
          obtain ⟨⟨-, noLine'⟩, leftFits', rightFits'⟩ := hu
          rw [outlineText_branch, outlineText_branch, List.append_cancel_left_eq] at same
          obtain ⟨sameLabel, -, sameParts⟩ := append_cons_inj noLine noLine' same
          obtain rfl := Nonterminal.eq_of_toList sameLabel
          obtain ⟨rfl, sameRest⟩ := ihLeft leftFits leftFits' sameParts
          obtain ⟨rfl, rfl⟩ := ihRight rightFits rightFits' sameRest
          exact ⟨rfl, rfl⟩

/-- **A tree is determined by its outline.** -/
theorem renderOutline_inj (ht : t.FitsLines) (hu : u.FitsLines)
    (same : t.renderOutline = u.renderOutline) : t = u := by
  have sameText : t.outlineText 0 ++ [] = u.outlineText 0 ++ [] := by
    rw [← toList_renderOutline, ← toList_renderOutline, same]
  exact (outlineText_append_inj ht hu sameText).1

/-- With a line feed in a word, a line of one tree may be part of a word of the other. -/
example :
    (branch ⟨"S"⟩ (leaf ⟨"A"⟩ "a") (leaf ⟨"B"⟩ "b\"\n  C \"c")).renderOutline =
      (branch ⟨"S"⟩ (leaf ⟨"A"⟩ "a\"\n  B \"b") (leaf ⟨"C"⟩ "c")).renderOutline := by
  decide

end PhraseChart.Tree
