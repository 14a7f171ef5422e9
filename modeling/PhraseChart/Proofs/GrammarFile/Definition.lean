/-
# PhraseChart.Proofs.GrammarFile.Definition -- the lines that define something

`Definition.ofText` reads a line in three layers, tokens, opening and alternatives.
`ofText_eq_ok_iff` states what has to be there for it to succeed: the line spells a
name, an equals sign and a body, and each stretch of the body between bars is an
alternative.

What is read has names and words of the right characters (`isWritable_of_ofText`):
the scanner only makes such tokens (`Token.Spells.isWritten`), the check of a word
adds that it is not empty and holds no blank, and a line that opens with a semicolon
is silent, so no left-hand side does.
-/
import PhraseChart.GrammarFile.Loading
import PhraseChart.GrammarFile.Spelling

namespace PhraseChart

set_option autoImplicit false

open Text (isBlank)

/-! ## Which symbols a line can hold -/

/-- The characters of a token are those that the scanner gives it. -/
def Token.IsWritten : Token → Prop
  | .name text => text ≠ "" ∧ ∀ c ∈ text.toList, isNameChar c = true
  | .quoted text => '"' ∉ text.toList
  | _ => True

instance : (token : Token) → Decidable token.IsWritten
  | .name text =>
      have := List.decidableBAll (fun c => Token.isNameChar c = true) text.toList
      inferInstanceAs (Decidable (text ≠ "" ∧ ∀ c ∈ text.toList, Token.isNameChar c = true))
  | .quoted text => inferInstanceAs (Decidable ('"' ∉ text.toList))
  | .equals => inferInstanceAs (Decidable True)
  | .bar => inferInstanceAs (Decidable True)

namespace Rhs

/-- An alternative as it is written. -/
def tokens : Rhs → List Token
  | .lexical word => [.quoted word]
  | .binary left right => [.name left.name, .name right.name]

/-- The word of an alternative could be a token of a sentence. -/
def IsChecked : Rhs → Prop
  | .lexical word => word ≠ "" ∧ ∀ c ∈ word.toList, isBlank c = false
  | .binary _ _ => True

theorem bar_not_mem_tokens (rhs : Rhs) : Token.bar ∉ rhs.tokens := by
  cases rhs <;> simp [tokens]

def IsWritable (rhs : Rhs) : Prop := (∀ token ∈ rhs.tokens, token.IsWritten) ∧ rhs.IsChecked

instance : (rhs : Rhs) → Decidable rhs.IsChecked
  | .lexical word =>
      have := List.decidableBAll (fun c => isBlank c = false) word.toList
      inferInstanceAs (Decidable (word ≠ "" ∧ ∀ c ∈ word.toList, isBlank c = false))
  | .binary _ _ => inferInstanceAs (Decidable True)

instance (rhs : Rhs) : Decidable rhs.IsWritable := inferInstanceAs (Decidable (_ ∧ _))

end Rhs

/-- The symbols of a definition can be written on one rule line. -/
structure Definition.IsWritable (d : Definition) : Prop where
  isName : (Token.name d.lhs.name).IsWritten
  opens : d.lhs.name.toList.head? ≠ some ';'
  nonempty : d.alternatives ≠ []
  each : ∀ rhs ∈ d.alternatives, rhs.IsWritable

instance (d : Definition) : Decidable d.IsWritable :=
  decidable_of_iff
    ((Token.name d.lhs.name).IsWritten ∧ d.lhs.name.toList.head? ≠ some ';' ∧
      d.alternatives ≠ [] ∧ ∀ rhs ∈ d.alternatives, rhs.IsWritable)
    ⟨fun ⟨isName, opens, nonempty, each⟩ => ⟨isName, opens, nonempty, each⟩,
      fun h => ⟨h.isName, h.opens, h.nonempty, h.each⟩⟩

theorem Token.Spells.isWritten {s : List Char} {tokens : List Token} (h : Spells s tokens) :
    ∀ token ∈ tokens, token.IsWritten := by
  induction h with
  | nil => simp
  | blank _ _ ih => exact ih
  | equals _ ih => exact List.forall_mem_cons.2 ⟨trivial, ih⟩
  | bar _ ih => exact List.forall_mem_cons.2 ⟨trivial, ih⟩
  | quoted free _ ih => exact List.forall_mem_cons.2 ⟨free, ih⟩
  | name nonempty ordinary _ _ ih => exact List.forall_mem_cons.2 ⟨⟨nonempty, ordinary⟩, ih⟩

/-- A line whose first token is a name has that name after its leading blanks. -/
theorem Token.Spells.dropWhile_eq {s : List Char} {text : String} {tokens : List Token}
    (h : Spells s (.name text :: tokens)) : ∃ rest, s.dropWhile isBlank = text.toList ++ rest := by
  generalize opening : Token.name text :: tokens = all at h
  induction h with
  | nil => simp at opening
  | blank blank _ ih =>
      obtain ⟨rest, same⟩ := ih opening
      exact ⟨rest, by rw [List.dropWhile_cons_of_pos blank, same]⟩
  | equals => simp at opening
  | bar => simp at opening
  | quoted => simp at opening
  | @name text' s _ nonempty ordinary _ _ _ =>
      obtain ⟨rfl, rfl⟩ := by simpa using opening
      refine ⟨s, ?_⟩
      cases front : text.toList with
      | nil => exact absurd (String.toList_eq_nil_iff.1 front) nonempty
      | cons c rest =>
          have first := ordinary c (by simp [front])
          have visible : ¬ isBlank c = true := by
            intro blank
            simp [isNameChar, blank] at first
          rw [List.cons_append, List.dropWhile_cons_of_neg visible]

/-! ## When a line defines something -/

namespace Definition

theorem alternative_eq_ok_iff {tokens : List Token} {rhs : Rhs} :
    alternative tokens = .ok rhs ↔ tokens = rhs.tokens ∧ rhs.IsChecked := by
  constructor
  · intro h
    unfold alternative at h
    split at h
    · obtain rfl := Except.ok.inj h
      exact ⟨rfl, trivial⟩
    · rename_i word
      split at h
      · simp at h
      · rename_i nonempty
        split at h
        · simp at h
        · rename_i visible
          obtain rfl := Except.ok.inj h
          refine ⟨rfl, by simpa using nonempty, ?_⟩
          intro c inside
          simpa using fun blank => visible (List.any_eq_true.2 ⟨c, inside, blank⟩)
    · simp at h
    · split at h
      · simp at h
      · split at h <;> simp at h
  · rintro ⟨rfl, checked⟩
    cases rhs with
    | binary left right => rfl
    | lexical word =>
        obtain ⟨nonempty, visible⟩ := checked
        have bare : word.toList.any isBlank = false := by
          rw [List.any_eq_false]
          intro c inside
          simp [visible c inside]
        rw [Rhs.tokens, alternative, if_neg (by simpa using nonempty), if_neg (by simp [bare])]

theorem alternatives?_eq_ok_iff {parts : List (List Token)} {alternatives : List Rhs} :
    alternatives? parts = .ok alternatives ↔ parts.map alternative = alternatives.map .ok := by
  induction parts generalizing alternatives with
  | nil => simp [alternatives?, eq_comm]
  | cons part rest ih =>
      rw [alternatives?, List.map_cons]
      cases alternative part with
      | error fault => cases alternatives <;> simp
      | ok rhs =>
          cases alternatives with
          | nil => cases alternatives? rest <;> simp [Except.map]
          | cons other others =>
              rw [List.map_cons, List.cons.injEq, ← ih]
              cases alternatives? rest <;> simp [Except.map]

theorem ofTokens_eq_ok_iff {tokens : List Token} {d : Definition} :
    ofTokens tokens = .ok d ↔
      ∃ body, tokens = .name d.lhs.name :: .equals :: body ∧
        (body.splitOn .bar).map alternative = d.alternatives.map .ok := by
  constructor
  · intro h
    unfold ofTokens at h
    split at h
    · simp at h
    · rename_i lhs body
      cases read : alternatives? (body.splitOn .bar) with
      | error fault => simp [read, Except.map] at h
      | ok alternatives =>
          obtain rfl : { lhs := ⟨lhs⟩, alternatives } = d := by simpa [read, Except.map] using h
          exact ⟨body, rfl, alternatives?_eq_ok_iff.1 read⟩
    · simp at h
    · simp at h
  · rintro ⟨body, rfl, read⟩
    rw [ofTokens, alternatives?_eq_ok_iff.2 read]
    rfl

/-- **A line defines something just when it spells a name, an equals sign and
alternatives.** -/
theorem ofText_eq_ok_iff {s : List Char} {d : Definition} :
    ofText s = .ok d ↔
      ∃ body, Token.Spells s (.name d.lhs.name :: .equals :: body) ∧
        (body.splitOn .bar).map alternative = d.alternatives.map .ok := by
  unfold ofText
  constructor
  · intro h
    cases scanned : Token.scan s with
    | none => simp [scanned] at h
    | some tokens =>
        rw [scanned] at h
        obtain ⟨body, rfl, read⟩ := ofTokens_eq_ok_iff.1 h
        exact ⟨body, Token.scan_eq_some_iff.1 scanned, read⟩
  · rintro ⟨body, spelled, read⟩
    rw [spelled.scan_eq]
    exact ofTokens_eq_ok_iff.2 ⟨body, rfl, read⟩

/-! ## Bodies -/

theorem map_alternative_eq_iff {parts : List (List Token)} {alternatives : List Rhs} :
    parts.map alternative = alternatives.map .ok ↔
      parts = alternatives.map Rhs.tokens ∧ ∀ rhs ∈ alternatives, rhs.IsChecked := by
  induction parts generalizing alternatives with
  | nil => cases alternatives <;> simp
  | cons part rest ih =>
      cases alternatives with
      | nil => simp
      | cons rhs others =>
          simp only [List.map_cons, List.cons.injEq, ih, alternative_eq_ok_iff,
            List.forall_mem_cons]
          exact and_and_and_comm

/-- **A body that can be read is its alternatives with bars between them.** -/
theorem map_alternative_splitOn_iff {body : List Token} {alternatives : List Rhs} :
    (body.splitOn .bar).map alternative = alternatives.map .ok ↔
      alternatives ≠ [] ∧ body = [Token.bar].intercalate (alternatives.map Rhs.tokens) ∧
        ∀ rhs ∈ alternatives, rhs.IsChecked := by
  rw [map_alternative_eq_iff]
  constructor
  · rintro ⟨parts, checked⟩
    refine ⟨?_, ?_, checked⟩
    · rintro rfl
      exact List.splitOn_ne_nil _ _ parts
    · rw [← parts, List.intercalate_splitOn]
  · rintro ⟨some_, rfl, checked⟩
    refine ⟨List.splitOn_intercalate _ ?_ (by simpa using some_), checked⟩
    intro part isPart
    obtain ⟨rhs, -, rfl⟩ := List.mem_map.1 isPart
    exact rhs.bar_not_mem_tokens

/-! ## What is read can be written -/

theorem mem_intercalate {α : Type} {parts : List (List α)} {separator part : List α} {a : α}
    (inPart : a ∈ part) (isPart : part ∈ parts) : a ∈ separator.intercalate parts := by
  induction parts with
  | nil => simp at isPart
  | cons first rest ih =>
      cases rest with
      | nil =>
          obtain rfl : part = first := by simpa using isPart
          rwa [List.intercalate_singleton]
      | cons second others =>
          rw [List.intercalate_cons_cons, List.mem_append]
          rcases List.mem_cons.1 isPart with rfl | later
          · exact .inl (List.mem_append_left _ inPart)
          · exact .inr (ih later)

/-- **What a rule line defines can be written on a rule line.** -/
theorem isWritable_of_ofText {s : List Char} {d : Definition}
    (spoken : GrammarFile.isSilent s = false) (h : ofText s = .ok d) : d.IsWritable := by
  obtain ⟨_, spelled, read⟩ := ofText_eq_ok_iff.1 h
  obtain ⟨some_, rfl, checked⟩ := map_alternative_splitOn_iff.1 read
  have written := spelled.isWritten
  refine ⟨written _ (by simp), ?_, ?_, ?_⟩
  · intro opening
    obtain ⟨rest, front⟩ := spelled.dropWhile_eq
    cases name : d.lhs.name.toList with
    | nil => simp [name] at opening
    | cons c others =>
        obtain rfl : c = ';' := by simpa [name] using opening
        simp [GrammarFile.isSilent, front, name] at spoken
  · exact some_
  · intro rhs member
    refine ⟨fun token inPart => written token ?_, checked rhs member⟩
    simp [mem_intercalate inPart (List.mem_map_of_mem member)]

end Definition

end PhraseChart
