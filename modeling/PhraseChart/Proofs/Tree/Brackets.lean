/-
# PhraseChart.Proofs.Tree.Brackets -- a tree is known by its brackets and its words

The brackets around a tree are not told apart from brackets inside its names and words:
`(x` may be a word, and `y)` a name.  So a written tree cannot be read by counting brackets from
the left.  It can be read from the right by someone who knows the words.  The last piece of the
text, behind its last space, is the last word and as many brackets as there are phrases that end
with it (`exists_last_piece`).  A phrase that ends there begins where its left part, and before it
its name, have been taken off the text, and the number of brackets tells a leaf from a branch
(`closings_eq`).

`render_append_inj` states this for a tree behind any text, which is what the induction needs: the
tree is determined, and so is the place where it begins.  Nothing is asked of names and words but
that they hold no space.
-/
import Mathlib.Data.List.Basic
import PhraseChart.Tree

namespace PhraseChart.Tree

set_option autoImplicit false

/-- No name and no word of the tree holds a space. -/
def NoSpaces : Tree → Prop
  | .leaf label word => ' ' ∉ label.name.toList ∧ ' ' ∉ word.toList
  | .branch label left right => ' ' ∉ label.name.toList ∧ left.NoSpaces ∧ right.NoSpaces

instance decidableNoSpaces : (tree : Tree) → Decidable tree.NoSpaces
  | .leaf label word => inferInstanceAs (Decidable (' ' ∉ label.name.toList ∧ ' ' ∉ word.toList))
  | .branch label left right =>
      have := decidableNoSpaces left
      have := decidableNoSpaces right
      inferInstanceAs (Decidable (' ' ∉ label.name.toList ∧ left.NoSpaces ∧ right.NoSpaces))

def lastWord : Tree → Word
  | .leaf _ word => word
  | .branch _ _ right => right.lastWord

/-- The number of phrases that end with the last word. -/
def closings : Tree → Nat
  | .leaf _ _ => 1
  | .branch _ _ right => right.closings + 1

theorem closings_pos (tree : Tree) : 0 < tree.closings := by
  cases tree <;> simp [closings]

variable {t u : Tree} {s : List Char}

/-! ## Pieces between spaces -/

/-- What follows this text is a piece of its own. -/
def EndsPiece (s : List Char) : Prop := s = [] ∨ ∃ before, s = before ++ [' ']

theorem endsPiece_space (s : List Char) : EndsPiece (s ++ [' ']) := .inr ⟨s, rfl⟩

/-- A stretch without spaces begins behind the last space. -/
theorem EndsPiece.eq_nil {rest : List Char} (h : EndsPiece (s ++ rest)) (free : ' ' ∉ rest) :
    rest = [] := by
  rcases h with empty | ⟨before, same⟩
  · exact (List.append_eq_nil_iff.1 empty).2
  · rcases List.eq_nil_or_concat' rest with none | ⟨front, c, rfl⟩
    · exact none
    · rw [← List.append_assoc] at same
      obtain ⟨-, final⟩ := List.append_inj' same rfl
      obtain rfl : c = ' ' := by simpa using final
      simp at free

/-- The last piece of a text is determined by the text. -/
theorem EndsPiece.append_inj {before before' piece piece' : List Char} (h : EndsPiece before)
    (h' : EndsPiece before') (free : ' ' ∉ piece) (free' : ' ' ∉ piece')
    (same : before ++ piece = before' ++ piece') : before = before' ∧ piece = piece' := by
  rcases List.append_eq_append_iff.1 same with ⟨rest, rfl, rfl⟩ | ⟨rest, rfl, rfl⟩
  · obtain rfl := h'.eq_nil fun inside => free (List.mem_append_left _ inside)
    simp
  · obtain rfl := h.eq_nil fun inside => free' (List.mem_append_left _ inside)
    simp

/-! ## The text of a tree -/

theorem append_render_leaf (before : List Char) (label : Nonterminal) (word : Word) :
    before ++ (leaf label word).render.toList =
      before ++ '(' :: label.name.toList ++ ([' '] ++ (word.toList ++ [')'])) := by
  simp [render]

theorem append_render_branch (before : List Char) (label : Nonterminal) (left right : Tree) :
    before ++ (branch label left right).render.toList =
      before ++ '(' :: label.name.toList ++ [' '] ++ left.render.toList ++ [' '] ++
        right.render.toList ++ [')'] := by
  simp [render]

theorem exists_words_eq (tree : Tree) : ∃ before, tree.words = before ++ [tree.lastWord] := by
  induction tree with
  | leaf label word => exact ⟨[], rfl⟩
  | branch label left right _ ih =>
      obtain ⟨before, same⟩ := ih
      exact ⟨left.words ++ before, by rw [words, same, lastWord, List.append_assoc]⟩

/-- **The last piece of a tree is its last word and the brackets that close there.** -/
theorem exists_last_piece (tree : Tree) (before : List Char) :
    ∃ front, before ++ tree.render.toList =
      front ++ [' '] ++ (tree.lastWord.toList ++ List.replicate tree.closings ')') := by
  induction tree generalizing before with
  | leaf label word =>
      refine ⟨before ++ '(' :: label.name.toList, ?_⟩
      rw [append_render_leaf, ← List.append_assoc]
      rfl
  | branch label left right _ ih =>
      rw [append_render_branch]
      obtain ⟨front, same⟩ :=
        ih (before ++ '(' :: label.name.toList ++ [' '] ++ left.render.toList ++ [' '])
      refine ⟨front, ?_⟩
      rw [same, lastWord, closings, List.replicate_succ']
      simp only [List.append_assoc]

theorem NoSpaces.lastWord (h : t.NoSpaces) : ' ' ∉ t.lastWord.toList := by
  induction t with
  | leaf label word => exact h.2
  | branch label left right _ ih => exact ih h.2.2

/-! ## Reading from the right -/

section Suffix

variable {before before' : List Char} {earlier earlier' : List Word}

/-- Where two trees end with the same word and the same text, as many phrases end. -/
theorem closings_eq (ht : t.NoSpaces) (hu : u.NoSpaces)
    (sameWords : earlier ++ t.words = earlier' ++ u.words)
    (sameText : before ++ t.render.toList = before' ++ u.render.toList) :
    t.closings = u.closings := by
  obtain ⟨earlierT, wordsT⟩ := t.exists_words_eq
  obtain ⟨earlierU, wordsU⟩ := u.exists_words_eq
  rw [wordsT, wordsU, ← List.append_assoc, ← List.append_assoc] at sameWords
  obtain ⟨-, sameLast⟩ := List.append_inj' sameWords rfl
  obtain sameLast : t.lastWord = u.lastWord := by simpa using sameLast
  obtain ⟨frontT, textT⟩ := t.exists_last_piece before
  obtain ⟨frontU, textU⟩ := u.exists_last_piece before'
  have free {tree : Tree} (h : tree.NoSpaces) :
      ' ' ∉ tree.lastWord.toList ++ List.replicate tree.closings ')' := by
    simpa using h.lastWord
  rw [textT, textU] at sameText
  obtain ⟨-, samePiece⟩ := (endsPiece_space frontT).append_inj (endsPiece_space frontU) (free ht)
    (free hu) sameText
  rw [sameLast, List.append_cancel_left_eq] at samePiece
  simpa using congrArg List.length samePiece

/-- The opening of a phrase is the last piece that is left when its parts are taken off. -/
theorem label_inj {label label' : Nonterminal} (h : EndsPiece before) (h' : EndsPiece before')
    (free : ' ' ∉ label.name.toList) (free' : ' ' ∉ label'.name.toList)
    (same : before ++ '(' :: label.name.toList = before' ++ '(' :: label'.name.toList) :
    before = before' ∧ label = label' := by
  obtain ⟨rfl, sameOpening⟩ := h.append_inj h' (by simpa using free) (by simpa using free') same
  exact ⟨rfl, Nonterminal.eq_of_toList (List.cons.inj sameOpening).2⟩

end Suffix

/-- **A tree at the end of a text is determined by the text and the words**, and so is the place
where it begins. -/
theorem render_append_inj {before before' : List Char} {earlier earlier' : List Word}
    (ht : t.NoSpaces) (hu : u.NoSpaces) (h : EndsPiece before) (h' : EndsPiece before')
    (sameWords : earlier ++ t.words = earlier' ++ u.words)
    (sameText : before ++ t.render.toList = before' ++ u.render.toList) :
    before = before' ∧ t = u := by
  induction t generalizing u before before' earlier earlier' with
  | leaf label word =>
      cases u with
      | leaf label' word' =>
          obtain ⟨-, sameWord⟩ := List.append_inj' sameWords rfl
          obtain rfl : word = word' := by simpa [words] using sameWord
          rw [append_render_leaf, append_render_leaf, List.append_cancel_right_eq] at sameText
          obtain ⟨rfl, rfl⟩ := label_inj h h' ht.1 hu.1 sameText
          exact ⟨rfl, rfl⟩
      | branch label' left' right' =>
          have one := closings_eq ht hu sameWords sameText
          have more := right'.closings_pos
          simp only [closings] at one
          omega
  | branch label left right ihLeft ihRight =>
      cases u with
      | leaf label' word' =>
          have one := closings_eq ht hu sameWords sameText
          have more := right.closings_pos
          simp only [closings] at one
          omega
      | branch label' left' right' =>
          obtain ⟨freeLabel, freeLeft, freeRight⟩ := ht
          obtain ⟨freeLabel', freeLeft', freeRight'⟩ := hu
          rw [append_render_branch, append_render_branch, List.append_cancel_right_eq] at sameText
          simp only [words, ← List.append_assoc] at sameWords
          obtain ⟨sameFront, rfl⟩ := ihRight freeRight freeRight' (endsPiece_space _)
            (endsPiece_space _) sameWords sameText
          rw [List.append_cancel_right_eq] at sameFront sameWords
          obtain ⟨sameOpening, rfl⟩ := ihLeft freeLeft freeLeft' (endsPiece_space _)
            (endsPiece_space _) sameWords sameFront
          rw [List.append_cancel_right_eq] at sameOpening
          obtain ⟨rfl, rfl⟩ := label_inj h h' freeLabel freeLabel' sameOpening
          exact ⟨rfl, rfl⟩

/-- The words are needed: a bracket belongs to a word of one tree and closes a phrase of the
other. -/
example :
    (branch ⟨"S"⟩ (branch ⟨"X"⟩ (leaf ⟨"a)"⟩ "(z") (leaf ⟨"B"⟩ "b")) (leaf ⟨"C"⟩ "e)")).render =
      (branch ⟨"S"⟩ (leaf ⟨"X"⟩ "(a") (branch ⟨"z)"⟩ (leaf ⟨"B"⟩ "b)") (leaf ⟨"C"⟩ "e"))).render := by
  decide

end PhraseChart.Tree
