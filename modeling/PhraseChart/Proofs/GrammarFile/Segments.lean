/-
# PhraseChart.Proofs.GrammarFile.Segments -- a line cut into its tokens

`Segments line front placed` lays a line out from left to right: a gap in front, and then each
token as it is rendered with the gap behind it.  Gaps are blank and may be empty, except that two
names in a row have one between them.

A line is laid out in this way just when it spells the tokens (`spells_iff_segments`), so the
scanner returns the one list of tokens that a line can be cut into, and returns none only over a
line with an odd number of quotes (`scan_segments`).  Nothing but blanks is dropped on the way,
and the gaps may as well be single spaces: tokens that are written with a space between them
are read again as they were (`spells_intercalate_render`).
-/
import Mathlib.Data.List.Chain
import PhraseChart.Proofs.GrammarFile.Faults

namespace PhraseChart

set_option autoImplicit false

open Text (isBlank Blanks)

namespace Token

def isName : Token → Bool
  | .name _ => true
  | _ => false

/-- The line is the gap in front, and then the tokens with the gaps behind them. -/
structure Segments (line front : List Char) (placed : List (Token × List Char)) : Prop where
  line_eq : line = front ++ placed.flatMap fun (token, gap) => token.render.toList ++ gap
  front : Blanks front
  gaps : ∀ place ∈ placed, Blanks place.2
  written : ∀ place ∈ placed, place.1.IsWritten
  /-- Two names in a row would run into one. -/
  apart : placed.IsChain fun one two => one.1.isName = true → two.1.isName = true → one.2 ≠ []

variable {line front gap s : List Char} {token : Token} {tokens : List Token}
  {placed : List (Token × List Char)}

/-! ## One token -/

/-- Of all tokens only a name starts like one. -/
theorem startsNoName_render_append (written : token.IsWritten) :
    StartsNoName (token.render.toList ++ s) ↔ token.isName = false := by
  cases token with
  | equals => exact iff_of_true (startsNoName_cons (by decide)) rfl
  | bar => exact iff_of_true (startsNoName_cons (by decide)) rfl
  | quoted text =>
      refine iff_of_true ?_ rfl
      simp only [render, String.toList_append, List.append_assoc]
      exact startsNoName_cons (by decide)
  | name text =>
      obtain ⟨nonempty, ordinary⟩ := written
      refine iff_of_false (fun free => ?_) (by simp [isName])
      cases spelled : text.toList with
      | nil => exact nonempty (String.toList_eq_nil_iff.1 spelled)
      | cons c rest =>
          have isFirst := free c (by simp [render, spelled])
          rw [ordinary c (by simp [spelled])] at isFirst
          cases isFirst

theorem segments_nil_iff : Segments line front [] ↔ line = front ∧ Blanks front := by
  constructor
  · intro h
    exact ⟨by simpa using h.line_eq, h.front⟩
  · rintro ⟨rfl, blanks⟩
    exact ⟨by simp, blanks, by simp, by simp, .nil⟩

/-- A token is over where its gap begins, if it is kept apart from the token that comes next. -/
theorem endsBefore_iff (segments : Segments s gap placed) :
    token.EndsBefore s ↔
      ∀ next ∈ placed.head?, token.isName = true → next.1.isName = true → gap ≠ [] := by
  cases token with
  | name text =>
      cases placed with
      | nil =>
          obtain ⟨rfl, blanks⟩ := segments_nil_iff.1 segments
          exact iff_of_true (startsNoName_of_blanks blanks) (by simp)
      | cons next others =>
          have start := @startsNoName_render_append
            (next.2 ++ others.flatMap fun (token, gap) => token.render.toList ++ gap) next.1
            (segments.written next (by simp))
          have laid := segments.line_eq
          rw [List.flatMap_cons, List.append_assoc] at laid
          subst laid
          cases gap with
          | nil => simpa [EndsBefore, isName] using start
          | cons c rest =>
              have blank := isNameChar_of_isBlank (segments.front c (by simp))
              exact iff_of_true (startsNoName_cons blank) (by simp)
  | _ => exact iff_of_true trivial (by simp [isName])

/-- The first token stands behind the gap in front, before the segments of the rest. -/
theorem segments_cons_iff :
    Segments line front ((token, gap) :: placed) ↔
      ∃ rest, Blanks front ∧ line = front ++ (token.render.toList ++ rest) ∧ token.IsWritten ∧
        token.EndsBefore rest ∧ Segments rest gap placed := by
  constructor
  · intro h
    obtain ⟨gapHere, gapsLater⟩ := List.forall_mem_cons.1 h.gaps
    obtain ⟨writtenHere, writtenLater⟩ := List.forall_mem_cons.1 h.written
    obtain ⟨apartHere, apartLater⟩ := List.isChain_cons.1 h.apart
    have later : Segments _ gap placed := ⟨rfl, gapHere, gapsLater, writtenLater, apartLater⟩
    exact ⟨_, h.front, by simpa using h.line_eq, writtenHere, (endsBefore_iff later).2 apartHere,
      later⟩
  · rintro ⟨rest, blanks, rfl, written, ends, later⟩
    refine ⟨by simp [later.line_eq], blanks, List.forall_mem_cons.2 ⟨later.front, later.gaps⟩,
      List.forall_mem_cons.2 ⟨written, later.written⟩, ?_⟩
    exact List.isChain_cons.2 ⟨(endsBefore_iff later).1 ends, later.apart⟩

/-! ## A line -/

/-- **A line spells tokens just when it can be cut into them.** -/
theorem spells_iff_segments :
    Spells line tokens ↔ ∃ front placed, placed.map Prod.fst = tokens ∧
      Segments line front placed := by
  induction tokens generalizing line with
  | nil =>
      simp only [spells_nil_iff, List.map_eq_nil_iff, exists_eq_left, segments_nil_iff]
      exact ⟨fun blanks => ⟨line, rfl, blanks⟩, fun ⟨_, same, blanks⟩ => same ▸ blanks⟩
  | cons token tokens ih =>
      rw [spells_cons_iff]
      constructor
      · rintro ⟨before, rest, blanks, laid, written, ends, spelled⟩
        obtain ⟨gap, placed, rfl, segments⟩ := ih.1 spelled
        exact ⟨before, (token, gap) :: placed, rfl,
          segments_cons_iff.2 ⟨rest, blanks, laid, written, ends, segments⟩⟩
      · rintro ⟨before, _ | ⟨⟨_, gap⟩, placed⟩, same, segments⟩
        · cases same
        · obtain ⟨rfl, rfl⟩ := List.cons.inj same
          obtain ⟨rest, blanks, laid, written, ends, later⟩ := segments_cons_iff.1 segments
          exact ⟨before, rest, blanks, laid, written, ends, ih.2 ⟨gap, placed, rfl, later⟩⟩

/-- What is not blank in a line stands in one of its tokens. -/
theorem Segments.filter_eq (h : Segments line front placed) :
    (line.filter fun c => !isBlank c) =
      ((placed.map Prod.fst).flatMap fun token => token.render.toList).filter
        fun c => !isBlank c := by
  have none {gap : List Char} (blanks : Blanks gap) : (gap.filter fun c => !isBlank c) = [] := by
    simpa [Blanks] using blanks
  rw [h.line_eq, List.filter_append, none h.front, List.nil_append, List.filter_flatMap,
    List.flatMap_map, List.filter_flatMap]
  apply List.flatMap_congr
  intro place isPlace
  rw [List.filter_append, none (h.gaps place isPlace), List.append_nil]

/-- Tokens with single spaces between them are spelled. -/
theorem spells_intercalate_render (written : ∀ token ∈ tokens, token.IsWritten) :
    Spells (" ".intercalate (tokens.map render)).toList tokens := by
  induction tokens with
  | nil => exact .nil
  | cons token rest ih =>
      obtain ⟨here, later⟩ := List.forall_mem_cons.1 written
      cases rest with
      | nil =>
          refine spells_cons_iff.2 ⟨[], [], by simp [Blanks], by simp, here, ?_, .nil⟩
          cases token <;> first | exact startsNoName_nil | trivial
      | cons next others =>
          have spelled := Spells.blank (c := ' ') (by decide) (ih later)
          refine spells_cons_iff.2 ⟨[], _, by simp [Blanks], ?_, here, ?_, spelled⟩
          · simp
          · cases token <;> first | exact startsNoName_cons (by decide) | trivial

end Token

/-- A quote that is left open is the one fault of cutting, and of nothing else. -/
theorem Definition.ofText_eq_unmatchedQuote_iff {line : List Char} :
    ofText line = .error .unmatchedQuote ↔ line.count '"' % 2 = 1 := by
  by_cases blank : Blanks line
  · have scanned := (Token.spells_nil_iff.2 blank).scan_eq
    have even : ¬ line.count '"' % 2 = 1 := fun odd => by
      rw [Token.scan_eq_none_iff.2 odd] at scanned
      cases scanned
    refine iff_of_false ?_ even
    simp [ofText, scanned, ofTokens]
  · rw [ofText_eq_error_iff blank]
    constructor
    · intro h
      cases h with
      | unmatchedQuote odd => exact odd
      | tokens _ isFault =>
          cases isFault with
          | alternative _ _ other => cases other
    · exact .unmatchedQuote

open Token in
/-- **The scanner cuts a line in the one way in which it can be cut.**  It fails, and with it the
reading of the line by the fault of an unmatched quote, when the number of quotes is odd.  Otherwise
the line is gaps and tokens in turn, and no other tokens; outside the gaps no character is
dropped, and the tokens with single spaces between them are read again. -/
theorem scan_segments (line : List Char) :
    (scan line = none ↔ line.count '"' % 2 = 1) ∧
    (Definition.ofText line = .error .unmatchedQuote ↔ line.count '"' % 2 = 1) ∧
    (line.count '"' % 2 = 0 →
      ∃ tokens, scan line = some tokens ∧
        (∃ front placed, placed.map Prod.fst = tokens ∧ Segments line front placed) ∧
        (∀ front placed, Segments line front placed → placed.map Prod.fst = tokens) ∧
        (line.filter fun c => !isBlank c) =
          (tokens.flatMap fun token => token.render.toList).filter (fun c => !isBlank c) ∧
        scan (" ".intercalate (tokens.map render)).toList = some tokens) := by
  refine ⟨scan_eq_none_iff, Definition.ofText_eq_unmatchedQuote_iff, fun even => ?_⟩
  cases scanned : scan line with
  | none =>
      have odd := scan_eq_none_iff.1 scanned
      omega
  | some tokens =>
      have spelled := scan_eq_some_iff.1 scanned
      obtain ⟨front, placed, rfl, segments⟩ := spells_iff_segments.1 spelled
      refine ⟨_, rfl, ⟨front, placed, rfl, segments⟩, ?_, segments.filter_eq,
        (spells_intercalate_render spelled.isWritten).scan_eq⟩
      intro otherFront other otherSegments
      exact (spells_iff_segments.2 ⟨otherFront, other, rfl, otherSegments⟩).unique spelled

/-- Tokens that touch, marks of the format inside quotes, and two names with a tab between them. -/
def crowdedLine : List Char := " S=\"|= \"|A\tB".toList

def crowdedTokens : List (Token × List Char) :=
  [(.name "S", []), (.equals, []), (.quoted "|= ", []), (.bar, []), (.name "A", ['\t']),
    (.name "B", [])]

theorem segments_crowdedLine : Token.Segments crowdedLine [' '] crowdedTokens where
  line_eq := by decide
  front := by decide
  gaps := by decide
  written := by decide
  apart := by decide

theorem scan_segments_crowded :
    crowdedLine.count '"' % 2 = 0 ∧
      Token.scan crowdedLine = some (crowdedTokens.map Prod.fst) ∧
      (crowdedLine.filter fun c => !isBlank c) = "S=\"|=\"|AB".toList ∧
      Token.scan "S = \"|= \" | A B".toList = some (crowdedTokens.map Prod.fst) := by
  have even : crowdedLine.count '"' % 2 = 0 := by decide
  obtain ⟨tokens, scanned, -, only, kept, again⟩ := (scan_segments crowdedLine).2.2 even
  obtain rfl := only _ _ segments_crowdedLine
  exact ⟨even, scanned, kept.trans (by decide), again⟩

end PhraseChart
