/-
# PhraseChart.GrammarFile.Spelling -- the texts that spell a list of tokens

`Spells s tokens` says how a line is written, without saying how it is read: the
tokens in their order, each as it is rendered, with blanks before, between and
after them.  Two names in a row need a blank between them; no other two tokens do.

Reading a line and spelling it are the same relation (`scan_eq_some_iff`), so a
line spells at most one list of tokens (`Spells.unique`).
-/
import PhraseChart.GrammarFile.Token

namespace PhraseChart.Token

set_option autoImplicit false

open Text (isBlank)

/-- No name can be read at the front of the text. -/
def StartsNoName (s : List Char) : Prop := ∀ c ∈ s.head?, isNameChar c = false

inductive Spells : List Char → List Token → Prop
  | nil : Spells [] []
  | blank {c : Char} {s : List Char} {tokens : List Token} : isBlank c = true →
      Spells s tokens → Spells (c :: s) tokens
  | equals {s : List Char} {tokens : List Token} :
      Spells s tokens → Spells ('=' :: s) (.equals :: tokens)
  | bar {s : List Char} {tokens : List Token} :
      Spells s tokens → Spells ('|' :: s) (.bar :: tokens)
  | quoted {text : String} {s : List Char} {tokens : List Token} : '"' ∉ text.toList →
      Spells s tokens → Spells ('"' :: (text.toList ++ '"' :: s)) (.quoted text :: tokens)
  | name {text : String} {s : List Char} {tokens : List Token} : text ≠ "" →
      (∀ c ∈ text.toList, isNameChar c = true) → StartsNoName s →
      Spells s tokens → Spells (text.toList ++ s) (.name text :: tokens)

/-! ### One step of the scanner -/

theorem scan_nil : scan [] = some [] := by simp [scan]

theorem scan_equals (s : List Char) : scan ('=' :: s) = (scan s).map (.equals :: ·) := by
  rw [scan]
  simp

theorem scan_bar (s : List Char) : scan ('|' :: s) = (scan s).map (.bar :: ·) := by
  rw [scan]
  simp

theorem scan_blank {c : Char} (h : isBlank c = true) (s : List Char) :
    scan (c :: s) = scan s := by
  have apart : c ≠ '=' ∧ c ≠ '|' ∧ c ≠ '"' := by
    refine ⟨?_, ?_, ?_⟩ <;> rintro rfl <;> revert h <;> decide
  rw [scan]
  simp [apart, h]

theorem scan_quote (s : List Char) :
    scan ('"' :: s) = (readToQuote s).bind fun (text, rest) =>
      (scan rest).map (.quoted text :: ·) := by
  rw [scan]
  simp only [Char.reduceEq, ↓reduceDIte]
  split
  · rename_i unread
    simp [unread]
  · rename_i read
    simp [read]

theorem scan_name {c : Char} (h : isNameChar c = true) (s : List Char) :
    scan (c :: s) =
      (scan (readName (c :: s)).2).map (.name (readName (c :: s)).1 :: ·) := by
  have ordinary := h
  simp only [isNameChar, Bool.not_eq_true', Bool.or_eq_false_iff, beq_eq_false_iff_ne,
    ne_eq] at ordinary
  obtain ⟨⟨⟨blank, equals⟩, bar⟩, quote⟩ := ordinary
  rw [scan]
  simp [equals, bar, quote, blank]

/-- A name is read as far as it was written. -/
theorem readName_append_eq {text : String} {s : List Char}
    (h : ∀ c ∈ text.toList, isNameChar c = true) (free : StartsNoName s) :
    readName (text.toList ++ s) = (text, s) := by
  unfold readName
  rw [List.takeWhile_append_of_pos h, List.dropWhile_append_of_pos h]
  cases s with
  | nil => simp
  | cons c rest =>
      have stops := free c (by simp)
      simp [stops]

theorem startsNoName_readName (s : List Char) : StartsNoName (readName s).2 := by
  intro c front
  simp only [readName] at front
  have nonempty : s.dropWhile isNameChar ≠ [] := by
    intro e
    simp [e] at front
  have := List.head_dropWhile_not isNameChar nonempty
  rw [List.head?_eq_some_head nonempty, Option.mem_some_iff] at front
  rwa [← front]

/-! ### Reading is spelling -/

theorem Spells.scan_eq {s : List Char} {tokens : List Token} (h : Spells s tokens) :
    scan s = some tokens := by
  induction h with
  | nil => exact scan_nil
  | blank isBlank _ ih => rw [scan_blank isBlank, ih]
  | equals _ ih => rw [scan_equals, ih, Option.map_some]
  | bar _ ih => rw [scan_bar, ih, Option.map_some]
  | quoted free _ ih =>
      simp [scan_quote, readToQuote_eq_some_iff.2 ⟨rfl, free⟩, ih]
  | @name text s tokens nonempty ordinary free _ ih =>
      have read := readName_append_eq ordinary free
      cases front : text.toList with
      | nil => exact absurd (String.toList_eq_nil_iff.1 front) nonempty
      | cons c rest =>
          rw [front] at read ordinary
          rw [List.cons_append] at read ⊢
          rw [scan_name (ordinary c (by simp)), read, ih, Option.map_some]

theorem spells_of_scan {s : List Char} {tokens : List Token} (h : scan s = some tokens) :
    Spells s tokens := by
  fun_induction scan s generalizing tokens with
  | case1 =>
      cases h
      exact .nil
  | case2 rest ih =>
      obtain ⟨_, read, rfl⟩ := Option.map_eq_some_iff.1 h
      exact .equals (ih read)
  | case3 rest _ ih =>
      obtain ⟨_, read, rfl⟩ := Option.map_eq_some_iff.1 h
      exact .bar (ih read)
  | case4 => simp at h
  | case5 rest text after read _ _ _ ih =>
      obtain ⟨_, further, rfl⟩ := Option.map_eq_some_iff.1 h
      obtain ⟨rfl, free⟩ := readToQuote_eq_some_iff.1 read
      exact .quoted free (ih further)
  | case6 c rest _ _ _ blank ih => exact .blank blank (ih h)
  | case7 c rest equals bar quote blank _ ih =>
      obtain ⟨tail, read, rfl⟩ := Option.map_eq_some_iff.1 h
      have ordinary := isNameChar_of_ordinary equals bar quote blank
      have spelled := @Spells.name (readName (c :: rest)).1 _ _
        (by simp [readName, ordinary]) (fun _ => isNameChar_of_mem_readName)
        (startsNoName_readName _) (ih read)
      rwa [readName_append] at spelled

theorem scan_eq_some_iff {s : List Char} {tokens : List Token} :
    scan s = some tokens ↔ Spells s tokens :=
  ⟨spells_of_scan, Spells.scan_eq⟩

theorem Spells.unique {s : List Char} {tokens others : List Token} (h : Spells s tokens)
    (other : Spells s others) : tokens = others :=
  Option.some.inj (h.scan_eq.symm.trans other.scan_eq)

end PhraseChart.Token
