/-
# PhraseChart.Proofs.Text.Lines -- closed lines are cut apart again

A line that a line feed closes is cut off before the rest is looked at
(`splitLines_append`), and what holds no line feed is one line (`splitLines_of_not_mem`).  An
induction over lines has these two cases (`lines_induction`).

Closing lines and cutting them is the identity on lines that hold no line feed and do not end
with a carriage return (`splitLines_closed`).
-/
import PhraseChart.Text

namespace PhraseChart.Text

set_option autoImplicit false

variable {α : Type} [BEq α] {lineFeed carriageReturn : α}

theorem closePieces_cons (carriageReturn : α) (piece : List α) {pieces : List (List α)}
    (more : pieces ≠ []) :
    closePieces carriageReturn (piece :: pieces) =
      withoutFinal carriageReturn piece :: closePieces carriageReturn pieces := by
  cases pieces with
  | nil => exact absurd rfl more
  | cons next rest => rfl

variable [LawfulBEq α]

/-- The first line ends at the first line feed. -/
theorem splitLines_append {line : List α} (free : lineFeed ∉ line) (rest : List α) :
    splitLines lineFeed carriageReturn (line ++ lineFeed :: rest) =
      withoutFinal carriageReturn line :: splitLines lineFeed carriageReturn rest := by
  rw [splitLines, List.splitOn_append_cons_self_of_not_mem free,
    closePieces_cons carriageReturn line (List.splitOn_ne_nil lineFeed rest), splitLines]

/-- What no line feed closes is a line unless it is empty. -/
theorem splitLines_of_not_mem {line : List α} (free : lineFeed ∉ line) :
    splitLines lineFeed carriageReturn line = if line.isEmpty then [] else [line] := by
  rw [splitLines, List.splitOn_eq_singleton free, closePieces]

/-- An induction that takes one closed line at a time. -/
@[elab_as_elim]
theorem lines_induction {motive : List α → Prop} (lineFeed : α)
    (last : ∀ line, lineFeed ∉ line → motive line)
    (closed : ∀ line rest, lineFeed ∉ line → motive rest → motive (line ++ lineFeed :: rest))
    (s : List α) : motive s := by
  by_cases more : lineFeed ∈ s
  · obtain ⟨line, rest, cut, free⟩ := List.eq_append_cons_of_mem more
    have shorter : rest.length < s.length := by
      rw [cut, List.length_append, List.length_cons]
      omega
    rw [cut]
    exact closed line rest free (lines_induction lineFeed last closed rest)
  · exact last s more
termination_by s.length

theorem withoutFinal_concat (mark : α) (line : List α) :
    withoutFinal mark (line ++ [mark]) = line := by
  simp [withoutFinal]

theorem withoutFinal_of_ne {line : List α} (bare : line.getLast? ≠ some carriageReturn) :
    withoutFinal carriageReturn line = line := by
  rw [withoutFinal, if_neg]
  intro same
  exact bare (eq_of_beq same)

/-- Lines that are closed by a line feed each are cut apart again. -/
theorem splitLines_closed {lines : List (List α)} (free : ∀ line ∈ lines, lineFeed ∉ line)
    (bare : ∀ line ∈ lines, line.getLast? ≠ some carriageReturn) :
    splitLines lineFeed carriageReturn (lines.flatMap (· ++ [lineFeed])) = lines := by
  induction lines with
  | nil => simp [splitLines, closePieces]
  | cons line rest ih =>
      obtain ⟨freeHere, freeLater⟩ := List.forall_mem_cons.1 free
      obtain ⟨bareHere, bareLater⟩ := List.forall_mem_cons.1 bare
      rw [List.flatMap_cons, List.append_assoc, List.singleton_append,
        splitLines_append freeHere, withoutFinal_of_ne bareHere, ih freeLater bareLater]

end PhraseChart.Text
