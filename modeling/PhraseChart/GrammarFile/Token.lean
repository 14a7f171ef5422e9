/-
# PhraseChart.GrammarFile.Token -- the tokens of a grammar line

A line is made of names, quoted words, equals signs and bars, with blanks between
them where they are wanted.  A name ends only at a blank, at an equals sign, at a
bar or at a quote; a quoted word ends at the next quote and may hold anything
else.  A line cannot be cut into tokens only when a quote is left open
(`scan s = none`).

`readQuoted` and `readName` take one token off the front of a text and return
what follows it.
-/
import PhraseChart.Text

namespace PhraseChart

set_option autoImplicit false

inductive Token where
  | equals
  | bar
  | name (text : String)
  | quoted (text : String)
deriving DecidableEq, Repr

namespace Token

open Text (isBlank)

/-- A token as it is written in a grammar line. -/
def render : Token → String
  | .equals => "="
  | .bar => "|"
  | .name text => text
  | .quoted text => "\"" ++ text ++ "\""

def isNameChar (c : Char) : Bool := !(isBlank c || c == '=' || c == '|' || c == '"')

/-- The longest name at the front, which may be empty, and the rest. -/
def readName (s : List Char) : String × List Char :=
  (String.ofList (s.takeWhile isNameChar), s.dropWhile isNameChar)

/-- The text up to the next quote, and what follows that quote. -/
def readToQuote (s : List Char) : Option (String × List Char) :=
  match s.dropWhile (· != '"') with
  | [] => none
  | _ :: rest => some (String.ofList (s.takeWhile (· != '"')), rest)

/-- A quoted word: the first character is taken for the quote that opens it. -/
def readQuoted (s : List Char) : Option (String × List Char) := readToQuote s.tail

/-! ### What the two readers take -/

/-- Nothing is lost between a name and the rest. -/
theorem readName_append (s : List Char) : (readName s).1.toList ++ (readName s).2 = s := by
  simp [readName]

theorem isNameChar_of_mem_readName {s : List Char} {c : Char}
    (h : c ∈ (readName s).1.toList) : isNameChar c = true := by
  simp only [readName, String.toList_ofList] at h
  exact List.all_eq_true.1 List.all_takeWhile c h

theorem eq_quote_of_dropWhile {s after : List Char} {mark : Char}
    (h : s.dropWhile (· != '"') = mark :: after) : mark = '"' := by
  have stopped := List.head_dropWhile_not (· != '"') (w := by rw [h]; simp)
  simpa [h] using stopped

/-- A text reads up to a quote just when it has one, and then up to the first. -/
theorem readToQuote_eq_some_iff {s rest : List Char} {text : String} :
    readToQuote s = some (text, rest) ↔ s = text.toList ++ '"' :: rest ∧ '"' ∉ text.toList := by
  unfold readToQuote
  constructor
  · intro h
    split at h
    · simp at h
    · rename_i mark after unread
      simp only [Option.some.injEq, Prod.mk.injEq] at h
      obtain ⟨rfl, rfl⟩ := h
      have whole := List.takeWhile_append_dropWhile (p := (· != '"')) (l := s)
      rw [unread, eq_quote_of_dropWhile unread] at whole
      refine ⟨by simpa using whole.symm, fun inside => ?_⟩
      rw [String.toList_ofList] at inside
      simpa using List.all_eq_true.1 List.all_takeWhile _ inside
  · rintro ⟨rfl, free⟩
    have before : ∀ c ∈ text.toList, (c != '"') = true := by
      intro c inside
      simpa using fun e : c = '"' => free (e ▸ inside)
    simp [List.dropWhile_append_of_pos before, List.takeWhile_append_of_pos before]

theorem readToQuote_eq_none_iff {s : List Char} : readToQuote s = none ↔ '"' ∉ s := by
  unfold readToQuote
  split
  · rename_i unread
    have whole := List.takeWhile_append_dropWhile (p := (· != '"')) (l := s)
    rw [unread, List.append_nil] at whole
    simp only [true_iff]
    intro inside
    rw [← whole] at inside
    simpa using List.all_eq_true.1 List.all_takeWhile _ inside
  · rename_i mark after unread
    simp only [reduceCtorEq, false_iff, Decidable.not_not]
    have : mark ∈ s.dropWhile (· != '"') := by simp [unread]
    exact eq_quote_of_dropWhile unread ▸ (List.dropWhile_sublist _).mem this

theorem length_readToQuote {s rest : List Char} {text : String}
    (h : readToQuote s = some (text, rest)) : rest.length < s.length := by
  rw [(readToQuote_eq_some_iff.1 h).1]
  simp only [List.length_append, List.length_cons]
  omega

theorem length_readName_le {c : Char} (h : isNameChar c = true) (s : List Char) :
    (readName (c :: s)).2.length ≤ s.length := by
  simpa [readName, h] using (List.dropWhile_sublist isNameChar (l := s)).length_le

theorem isNameChar_of_ordinary {c : Char} (equals : c ≠ '=') (bar : c ≠ '|') (quote : c ≠ '"')
    (ordinary : ¬ isBlank c = true) : isNameChar c = true := by
  simp [isNameChar, equals, bar, quote, ordinary]

/-- The tokens of a line, or `none` when a quote is left open. -/
def scan : List Char → Option (List Token)
  | [] => some []
  | c :: rest =>
      if hEquals : c = '=' then (scan rest).map (.equals :: ·)
      else if hBar : c = '|' then (scan rest).map (.bar :: ·)
      else if hQuote : c = '"' then
        match h : readToQuote rest with
        | none => none
        | some (text, after) =>
            have := length_readToQuote h
            (scan after).map (.quoted text :: ·)
      else if hBlank : isBlank c = true then scan rest
      else
        have := length_readName_le (isNameChar_of_ordinary hEquals hBar hQuote hBlank) rest
        (scan (readName (c :: rest)).2).map (.name (readName (c :: rest)).1 :: ·)
termination_by s => s.length

end Token

end PhraseChart
