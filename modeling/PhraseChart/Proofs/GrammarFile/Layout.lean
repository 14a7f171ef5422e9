/-
# PhraseChart.Proofs.GrammarFile.Layout -- where the tokens of a text stand

`Token.Spells` builds a text character by character.  Here the same relation is taken apart
token by token: a text spells no token when it is blank (`spells_nil_iff`), and it spells a
token and others when it is blanks, that token and a text for the others, such that a name
does not run on into that text (`spells_cons_iff`).

A bar ends every token, so a text for two lists of tokens with a bar between them is two
texts with a bar between them (`spells_append_bar_iff`), and likewise for any number of
lists (`spells_intercalate_iff`).
-/
import Mathlib.Data.List.Forall2
import PhraseChart.Proofs.GrammarFile.Definition

namespace PhraseChart

set_option autoImplicit false

open Text (isBlank)

/-- A run of blanks, which may be empty. -/
def Text.Blanks (s : List Char) : Prop := ∀ c ∈ s, isBlank c = true

instance (s : List Char) : Decidable (Text.Blanks s) :=
  List.decidableBAll (fun c => isBlank c = true) s

open Text (Blanks)

namespace Token

variable {s t : List Char} {token : Token} {tokens others : List Token}

/-! ## Ends of names -/

theorem startsNoName_nil : StartsNoName [] := by simp [StartsNoName]

theorem startsNoName_cons {c : Char} (h : isNameChar c = false) : StartsNoName (c :: s) := by
  simpa [StartsNoName] using h

theorem isNameChar_of_isBlank {c : Char} (h : isBlank c = true) : isNameChar c = false := by
  simp [isNameChar, h]

theorem startsNoName_blanks_append {gap : List Char} (blanks : Blanks gap)
    (free : StartsNoName s) : StartsNoName (gap ++ s) := by
  cases gap with
  | nil => exact free
  | cons c rest => exact startsNoName_cons (isNameChar_of_isBlank (blanks c (by simp)))

theorem startsNoName_of_blanks (h : Blanks s) : StartsNoName s := by
  simpa using startsNoName_blanks_append h startsNoName_nil

theorem startsNoName_append_bar : StartsNoName (s ++ '|' :: t) ↔ StartsNoName s := by
  cases s with
  | nil => exact iff_of_true (startsNoName_cons (by decide)) startsNoName_nil
  | cons c rest => simp [StartsNoName]

/-- The token is over where this text follows: only a name could run on. -/
def EndsBefore (s : List Char) : Token → Prop
  | .name _ => StartsNoName s
  | _ => True

theorem endsBefore_append_bar : token.EndsBefore (s ++ '|' :: t) ↔ token.EndsBefore s := by
  cases token with
  | name text => exact startsNoName_append_bar
  | _ => exact Iff.rfl

/-! ## One token -/

theorem Spells.blanks {before : List Char} (blank : Blanks before) (h : Spells s tokens) :
    Spells (before ++ s) tokens := by
  induction before with
  | nil => exact h
  | cons c rest ih =>
      obtain ⟨here, later⟩ := List.forall_mem_cons.1 blank
      exact .blank here (ih later)

theorem spells_nil_iff : Spells s [] ↔ Blanks s := by
  constructor
  · intro h
    generalize none : ([] : List Token) = tokens at h
    induction h with
    | nil => simp [Blanks]
    | blank blank _ ih => exact List.forall_mem_cons.2 ⟨blank, ih none⟩
    | _ => simp at none
  · intro blank
    simpa using Spells.nil.blanks blank

/-- **The first token stands behind blanks and in front of a text for the others.** -/
theorem spells_cons_iff :
    Spells s (token :: tokens) ↔
      ∃ before rest, Blanks before ∧ s = before ++ (token.render.toList ++ rest) ∧
        token.IsWritten ∧ token.EndsBefore rest ∧ Spells rest tokens := by
  constructor
  · intro h
    generalize whole : token :: tokens = all at h
    induction h with
    | nil => simp at whole
    | @blank c _ _ blank _ ih =>
        obtain ⟨before, rest, blanks, rfl, further⟩ := ih whole
        exact ⟨c :: before, rest, List.forall_mem_cons.2 ⟨blank, blanks⟩, rfl, further⟩
    | @equals s _ spelled =>
        obtain ⟨rfl, rfl⟩ := List.cons.inj whole
        exact ⟨[], s, by simp [Blanks], rfl, trivial, trivial, spelled⟩
    | @bar s _ spelled =>
        obtain ⟨rfl, rfl⟩ := List.cons.inj whole
        exact ⟨[], s, by simp [Blanks], rfl, trivial, trivial, spelled⟩
    | @quoted text s _ free spelled =>
        obtain ⟨rfl, rfl⟩ := List.cons.inj whole
        exact ⟨[], s, by simp [Blanks], by simp [render], free, trivial, spelled⟩
    | @name text s _ nonempty ordinary free spelled =>
        obtain ⟨rfl, rfl⟩ := List.cons.inj whole
        exact ⟨[], s, by simp [Blanks], rfl, ⟨nonempty, ordinary⟩, free, spelled⟩
  · rintro ⟨before, rest, blanks, rfl, written, ends, spelled⟩
    apply Spells.blanks blanks
    cases token with
    | equals => exact .equals spelled
    | bar => exact .bar spelled
    | quoted text => simpa [render] using Spells.quoted written spelled
    | name text => exact .name written.1 written.2 ends spelled

/-! ## Bars -/

/-- **A bar between tokens is a bar between texts.** -/
theorem spells_append_bar_iff :
    Spells s (tokens ++ .bar :: others) ↔
      ∃ before after, s = before ++ '|' :: after ∧ Spells before tokens ∧ Spells after others := by
  induction tokens generalizing s with
  | nil =>
      simp only [List.nil_append, spells_nil_iff]
      rw [spells_cons_iff]
      constructor
      · rintro ⟨before, rest, blanks, rfl, -, -, spelled⟩
        exact ⟨before, rest, rfl, blanks, spelled⟩
      · rintro ⟨before, after, rfl, blanks, spelled⟩
        exact ⟨before, after, blanks, rfl, trivial, trivial, spelled⟩
  | cons token tokens ih =>
      rw [List.cons_append, spells_cons_iff]
      constructor
      · rintro ⟨blanks, rest, areBlanks, rfl, written, ends, spelled⟩
        obtain ⟨before, after, rfl, spelledBefore, spelledAfter⟩ := ih.1 spelled
        refine ⟨blanks ++ (token.render.toList ++ before), after, by simp, ?_, spelledAfter⟩
        exact spells_cons_iff.2
          ⟨blanks, before, areBlanks, rfl, written, endsBefore_append_bar.1 ends, spelledBefore⟩
      · rintro ⟨before, after, rfl, spelled, spelledAfter⟩
        obtain ⟨blanks, rest, areBlanks, rfl, written, ends, spelledRest⟩ :=
          spells_cons_iff.1 spelled
        exact ⟨blanks, rest ++ '|' :: after, areBlanks, by simp, written,
          endsBefore_append_bar.2 ends, ih.2 ⟨rest, after, rfl, spelledRest, spelledAfter⟩⟩

theorem intercalate_cons_mark {α : Type} (mark : α) (first : List α) {rest : List (List α)}
    (more : rest ≠ []) :
    [mark].intercalate (first :: rest) = first ++ mark :: [mark].intercalate rest := by
  rw [List.intercalate_cons_of_ne_nil more, List.append_assoc]
  rfl

/-- Bars between lists of tokens are bars between texts. -/
theorem spells_intercalate_iff {lists : List (List Token)} (some_ : lists ≠ []) :
    Spells s ([Token.bar].intercalate lists) ↔
      ∃ parts, s = ['|'].intercalate parts ∧ List.Forall₂ Spells parts lists := by
  induction lists generalizing s with
  | nil => exact absurd rfl some_
  | cons first rest ih =>
      by_cases last : rest = []
      · subst last
        rw [List.intercalate_singleton]
        constructor
        · intro spelled
          exact ⟨[s], by rw [List.intercalate_singleton], .cons spelled .nil⟩
        · rintro ⟨parts, rfl, each⟩
          obtain ⟨part, _, spelled, none, rfl⟩ := List.forall₂_cons_right_iff.1 each
          obtain rfl := List.forall₂_nil_right_iff.1 none
          rwa [List.intercalate_singleton]
      · have more {parts : List (List Char)} (each : List.Forall₂ Spells parts rest) :
            parts ≠ [] := by
          rintro rfl
          exact last (List.forall₂_nil_left_iff.1 each)
        rw [intercalate_cons_mark .bar first last, spells_append_bar_iff]
        constructor
        · rintro ⟨before, after, rfl, spelled, spelledAfter⟩
          obtain ⟨parts, rfl, each⟩ := (ih last).1 spelledAfter
          exact ⟨before :: parts, (intercalate_cons_mark '|' before (more each)).symm,
            .cons spelled each⟩
        · rintro ⟨parts, rfl, each⟩
          obtain ⟨before, later, spelled, eachLater, rfl⟩ := List.forall₂_cons_right_iff.1 each
          exact ⟨before, _, intercalate_cons_mark '|' before (more eachLater), spelled,
            (ih last).2 ⟨later, rfl, eachLater⟩⟩

end Token

end PhraseChart
