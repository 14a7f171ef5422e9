/-
# PhraseChart.Proofs.GrammarFile.LineEnds -- how the lines of a text end

A line of a grammar file says the same with blanks at its end and without them: it is silent or not
(`isSilent_append_blanks`), and it spells the same tokens or leaves a quote open
(`Token.scan_append_blanks`).  A carriage return is a blank.  So it does not matter which line ends a
text uses, nor whether its last line has one.

`HasLines text lines` says that a text has these lines up to blanks at their ends, and loading depends
on no more than that (`readLines_congr`, `Defines.congr`).  Putting a carriage return in front of
every line feed keeps the lines of a text (`hasLines_withReturns`), and closing each of a list of
lines with a line feed gives a text that has them (`hasLines_ofList`).
-/
import Mathlib.Data.List.TakeWhile
import PhraseChart.Proofs.GrammarFile.Faults
import PhraseChart.Proofs.GrammarFile.Reading
import PhraseChart.Proofs.Text.Lines

namespace PhraseChart

set_option autoImplicit false

open Text (isBlank Blanks)

variable {s line gap : List Char} {tokens : List Token}

/-! ## Blanks at the end of a line -/

namespace Token

theorem StartsNoName.append_blanks (free : StartsNoName s) (blanks : Blanks gap) :
    StartsNoName (s ++ gap) := by
  cases s with
  | nil => exact startsNoName_of_blanks blanks
  | cons c rest => exact free

theorem Spells.append_blanks (h : Spells s tokens) (blanks : Blanks gap) :
    Spells (s ++ gap) tokens := by
  induction h with
  | nil => exact spells_nil_iff.2 blanks
  | blank blank _ ih => exact .blank blank ih
  | equals _ ih => exact .equals ih
  | bar _ ih => exact .bar ih
  | quoted free _ ih => simpa using Spells.quoted free ih
  | name nonempty ordinary free _ ih =>
      rw [List.append_assoc]
      exact .name nonempty ordinary (free.append_blanks blanks) ih

/-- Blanks neither close a quote nor add a token. -/
theorem scan_append_blanks (s : List Char) (blanks : Blanks gap) : scan (s ++ gap) = scan s := by
  cases read : scan s with
  | some tokens => exact ((spells_of_scan read).append_blanks blanks).scan_eq
  | none =>
      have bare : '"' ∉ gap := by
        intro inside
        have blank := blanks _ inside
        revert blank
        decide
      rw [scan_eq_none_iff, List.count_append, List.count_eq_zero.2 bare]
      exact scan_eq_none_iff.1 read

end Token

namespace GrammarFile

variable {path : String} {number : Nat} {one two : List Char} {lines others : List (List Char)}
  {definitions : List Definition} {text : String}

theorem isSilent_append_blanks (line : List Char) (blanks : Blanks gap) :
    isSilent (line ++ gap) = isSilent line := by
  have rest : gap.dropWhile isBlank = [] := List.dropWhile_eq_nil_iff.2 blanks
  simp only [isSilent, List.dropWhile_append]
  cases line.dropWhile isBlank with
  | nil => simp [rest]
  | cons c others => simp

/-- The lines agree up to blanks at their ends. -/
def SameButEnd (one two : List Char) : Prop :=
  ∃ core gap gap', Blanks gap ∧ Blanks gap' ∧ one = core ++ gap ∧ two = core ++ gap'

theorem SameButEnd.refl (line : List Char) : SameButEnd line line :=
  ⟨line, [], [], by simp [Blanks], by simp [Blanks], by simp, by simp⟩

/-- **The end of a line says nothing.** -/
theorem readLine_congr (same : SameButEnd one two) :
    readLine path number (.ok one) = readLine path number (.ok two) := by
  obtain ⟨core, gap, gap', blanks, blanks', rfl, rfl⟩ := same
  simp only [readLine, Definition.ofText, isSilent_append_blanks core blanks,
    isSilent_append_blanks core blanks', Token.scan_append_blanks core blanks,
    Token.scan_append_blanks core blanks']

theorem readLines_congr (same : List.Forall₂ SameButEnd lines others) :
    readLines path number (lines.map .ok) = readLines path number (others.map .ok) := by
  induction same generalizing number with
  | nil => rfl
  | cons here _ ih => rw [List.map_cons, List.map_cons, readLines, readLines, readLine_congr here, ih]

theorem Defines.congr (h : Defines others definitions) (same : List.Forall₂ SameButEnd lines others) :
    Defines lines definitions := by
  obtain ⟨es, read, rfl⟩ := exists_entries_of_defines h "" 1
  rw [← readLines_congr same] at read
  exact defines_of_entries read

/-! ## The lines of a text -/

/-- The text has these lines, up to blanks at their ends. -/
def HasLines (text : String) (lines : List (List Char)) : Prop :=
  List.Forall₂ SameButEnd (Text.lines text.toList) lines

theorem hasLines_lines (text : String) : HasLines text (Text.lines text.toList) :=
  List.forall₂_same.2 fun line _ => .refl line

theorem HasLines.readLines_eq (h : HasLines text lines) :
    readLines path number (physicalLines text) = readLines path number (lines.map .ok) :=
  readLines_congr h

theorem sameButEnd_withoutFinal (line : List Char) :
    SameButEnd (Text.withoutFinal '\r' line) line := by
  by_cases final : line.getLast? = some '\r'
  · obtain ⟨front, rfl⟩ := List.getLast?_eq_some_iff.1 final
    rw [Text.withoutFinal_concat]
    exact ⟨front, [], ['\r'], by simp [Blanks], by decide, by simp, rfl⟩
  · rw [Text.withoutFinal_of_ne final]
    exact .refl line

/-- The text with a carriage return in front of every line feed. -/
def withReturns (text : String) : String :=
  .ofList (text.toList.flatMap fun c => if c = '\n' then ['\r', '\n'] else [c])

theorem flatMap_return_of_not_mem (free : '\n' ∉ line) :
    (line.flatMap fun c => if c = '\n' then ['\r', '\n'] else [c]) = line := by
  calc (line.flatMap fun c => if c = '\n' then ['\r', '\n'] else [c])
      = line.flatMap fun c => [c] := by
        apply List.flatMap_congr
        intro c inside
        rw [if_neg]
        rintro rfl
        exact free inside
    _ = line := List.flatMap_singleton' line

/-- **Carriage returns in front of line feeds belong to no line.** -/
theorem hasLines_withReturns (text : String) :
    HasLines (withReturns text) (Text.lines text.toList) := by
  rw [HasLines, withReturns, String.toList_ofList]
  induction text.toList using Text.lines_induction '\n' with
  | last line free =>
      rw [flatMap_return_of_not_mem free]
      exact List.forall₂_same.2 fun line _ => .refl line
  | closed line rest free ih =>
      have free' : '\n' ∉ line ++ ['\r'] := by simpa using free
      have first : ((line ++ '\n' :: rest).flatMap fun c => if c = '\n' then ['\r', '\n'] else [c]) =
          (line ++ ['\r']) ++
            '\n' :: rest.flatMap fun c => if c = '\n' then ['\r', '\n'] else [c] := by
        rw [List.flatMap_append, flatMap_return_of_not_mem free, List.flatMap_cons, if_pos rfl]
        simp
      rw [first, Text.lines, Text.lines, Text.splitLines_append free', Text.splitLines_append free,
        Text.withoutFinal_concat]
      refine .cons ?_ ih
      obtain ⟨core, gap, gap', blanks, blanks', short, whole⟩ := sameButEnd_withoutFinal line
      exact ⟨core, gap', gap, blanks', blanks, whole, short⟩

/-- **Lines that are closed by a line feed each make up a text that has them.** -/
theorem hasLines_ofList (free : ∀ line ∈ lines, '\n' ∉ line) :
    HasLines (.ofList (lines.flatMap (· ++ ['\n']))) lines := by
  rw [HasLines, String.toList_ofList]
  induction lines with
  | nil => exact .nil
  | cons line rest ih =>
      obtain ⟨freeHere, freeLater⟩ := List.forall_mem_cons.1 free
      rw [List.flatMap_cons, List.append_assoc, List.singleton_append, Text.lines,
        Text.splitLines_append freeHere]
      exact .cons (sameButEnd_withoutFinal line) (ih freeLater)

end GrammarFile

end PhraseChart
