/-
# PhraseChart.Proofs.Text.Words -- joined words are cut apart again

A blank ends one word and starts none, so a text is cut at any of its blanks before its
parts are looked at (`words_append_blank`), and a text without blanks is one word.  Joining
words by single spaces and cutting them is then the identity on words that a text can have
(`words_intercalate`).  A text whose only blanks are spaces is part of one line
(`OnlySpaces.not_mem`).
-/
import PhraseChart.Text

namespace PhraseChart.Text

set_option autoImplicit false

/-- What stands between blanks: not empty, and without a blank. -/
def IsWord (s : String) : Prop := s ≠ "" ∧ ∀ c ∈ s.toList, isBlank c = false

/-- Every blank parts the words before it from those behind it. -/
theorem words_append_blank {c : Char} (blank : isBlank c = true) (s t : List Char) :
    words (s ++ c :: t) = words s ++ words t := by
  rw [words, List.splitOnP_append_cons s t blank, List.filter_append, List.map_append, words, words]

theorem words_nil : words [] = [] := by
  simp [words, List.splitOnP_nil]

theorem words_of_isWord {s : String} (h : IsWord s) : words s.toList = [s] := by
  rw [words, List.splitOnP_eq_singleton h.2]
  simp [h.1]

theorem words_cons_of_blank {c : Char} (blank : isBlank c = true) (s : List Char) :
    words (c :: s) = words s := by
  have cut := words_append_blank blank [] s
  rwa [List.nil_append, words_nil, List.nil_append] at cut

theorem words_eq_nil_of_blank {s : List Char} (blank : s.all isBlank = true) : words s = [] := by
  induction s with
  | nil => exact words_nil
  | cons c rest ih =>
      rw [List.all_cons, Bool.and_eq_true] at blank
      rw [words_cons_of_blank blank.1, ih blank.2]

theorem words_cons_ne_nil {c : Char} (visible : isBlank c = false) (s : List Char) :
    words (c :: s) ≠ [] := by
  rw [words, List.splitOnP_cons_eq_if_modifyHead, if_neg (by simp [visible])]
  cases cut : s.splitOnP isBlank with
  | nil => exact absurd cut (List.splitOnP_ne_nil isBlank s)
  | cons run rest => simp

/-- Only blanks hold no word. -/
theorem words_eq_nil_iff {s : List Char} : words s = [] ↔ s.all isBlank = true := by
  constructor
  · intro none
    induction s with
    | nil => rfl
    | cons c rest ih =>
        cases blank : isBlank c with
        | false => exact absurd none (words_cons_ne_nil blank rest)
        | true =>
            rw [words_cons_of_blank blank] at none
            rw [List.all_cons, blank, ih none, Bool.and_self]
  · exact words_eq_nil_of_blank

/-- **Words that are joined by single spaces are cut apart again.** -/
theorem words_intercalate {ws : List String} (each : ∀ w ∈ ws, IsWord w) :
    words (" ".intercalate ws).toList = ws := by
  induction ws with
  | nil => simpa using words_nil
  | cons w rest ih =>
      obtain ⟨here, later⟩ := List.forall_mem_cons.1 each
      cases rest with
      | nil => simpa using words_of_isWord here
      | cons next others =>
          have more : next :: others ≠ [] := by simp
          rw [String.intercalate_cons_of_ne_nil more, String.toList_append, String.toList_append,
            List.append_assoc, show " ".toList = [' '] from rfl, List.singleton_append,
            words_append_blank (by decide), words_of_isWord here, ih later, List.singleton_append]

/-! ## Texts whose blanks are spaces -/

/-- Tabs, line ends and the other blanks are missing. -/
def OnlySpaces (s : List Char) : Prop := ∀ c ∈ s, isBlank c = true → c = ' '

instance (s : List Char) : Decidable (OnlySpaces s) :=
  List.decidableBAll (fun c => isBlank c = true → c = ' ') s

namespace OnlySpaces

variable {s t : List Char}

theorem append (hs : OnlySpaces s) (ht : OnlySpaces t) : OnlySpaces (s ++ t) := by
  intro c member
  rcases List.mem_append.1 member with left | right
  · exact hs c left
  · exact ht c right

theorem of_visible (h : ∀ c ∈ s, isBlank c = false) : OnlySpaces s := by
  intro c member blank
  rw [h c member] at blank
  exact absurd blank Bool.false_ne_true

theorem intercalate {parts : List (List Char)} (hs : OnlySpaces s)
    (each : ∀ part ∈ parts, OnlySpaces part) : OnlySpaces (s.intercalate parts) := by
  induction parts with
  | nil => simp [OnlySpaces]
  | cons first rest ih =>
      obtain ⟨here, others⟩ := List.forall_mem_cons.1 each
      have later := ih others
      by_cases last : rest = []
      · rwa [last, List.intercalate_singleton]
      · rw [List.intercalate_cons_of_ne_nil last]
        exact (here.append hs).append later

theorem not_mem (h : OnlySpaces s) {c : Char} (blank : isBlank c = true) (other : c ≠ ' ') :
    c ∉ s :=
  fun member => other (h c member blank)

end OnlySpaces

/-- Joining words adds no blank but spaces. -/
theorem onlySpaces_intercalate {ws : List String} (each : ∀ w ∈ ws, IsWord w) :
    OnlySpaces (" ".intercalate ws).toList := by
  rw [String.toList_intercalate]
  exact OnlySpaces.intercalate (by decide)
    (List.forall_mem_map.2 fun w member => OnlySpaces.of_visible (each w member).2)

end PhraseChart.Text
