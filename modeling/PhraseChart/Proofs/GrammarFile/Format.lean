/-
# PhraseChart.Proofs.GrammarFile.Format -- the format of grammar files

What a grammar file looks like, character by character, and that loading accepts this and
nothing else.  The description knows no tokens: a name is a run of characters other than
blanks, equals signs, bars and quotes (`IsName`); an alternative is two names with blanks
between them, or a word in quotes (`AlternativeText`); a rule line is a name, an equals sign
and alternatives with bars between them, with blanks around all of these (`RuleText`).

Each of these is what the tokens spell (`paddedAlternative_iff`, `ofText_eq_ok_iff_ruleText`).
A bar inside quotes is no separator and an equals sign inside quotes no fault, since the two
sides agree on the quotes.  `load_iff_format` puts the lines together.
-/
import PhraseChart.Proofs.Grammar.Indexing
import PhraseChart.Proofs.GrammarFile.Layout
import PhraseChart.Proofs.GrammarFile.Reading

namespace PhraseChart.GrammarFile

set_option autoImplicit false

open Text (isBlank Blanks)

/-! ## The format -/

/-- A line that is neither blank nor a comment. -/
def Speaks (line : List Char) : Prop :=
  ¬ Blanks line ∧ ¬ ∃ before after, Blanks before ∧ line = before ++ ';' :: after

def IsName (text : String) : Prop :=
  text ≠ "" ∧ ∀ c ∈ text.toList, isBlank c = false ∧ c ≠ '=' ∧ c ≠ '|' ∧ c ≠ '"'

instance (text : String) : Decidable (IsName text) :=
  have := List.decidableBAll
    (fun c => isBlank c = false ∧ c ≠ '=' ∧ c ≠ '|' ∧ c ≠ '"') text.toList
  inferInstanceAs (Decidable (text ≠ "" ∧
    ∀ c ∈ text.toList, isBlank c = false ∧ c ≠ '=' ∧ c ≠ '|' ∧ c ≠ '"'))

/-- An alternative as it is written. -/
inductive AlternativeText : List Char → Rhs → Prop
  | binary {left right : String} {gap : List Char} : IsName left → IsName right →
      gap ≠ [] → Blanks gap →
      AlternativeText (left.toList ++ (gap ++ right.toList)) (.binary ⟨left⟩ ⟨right⟩)
  | lexical {word : String} : word ≠ "" → (∀ c ∈ word.toList, c ≠ '"' ∧ isBlank c = false) →
      AlternativeText ('"' :: (word.toList ++ ['"'])) (.lexical word)

/-- An alternative with blanks around it. -/
def PaddedAlternative (s : List Char) (rhs : Rhs) : Prop :=
  ∃ before core after, Blanks before ∧ Blanks after ∧ s = before ++ (core ++ after) ∧
    AlternativeText core rhs

/-- A rule line: a name, an equals sign, and alternatives with bars between them. -/
def RuleText (line : List Char) (d : Definition) : Prop :=
  ∃ before between parts, Blanks before ∧ Blanks between ∧ IsName d.lhs.name ∧ parts ≠ [] ∧
    line = before ++ (d.lhs.name.toList ++ (between ++ '=' :: ['|'].intercalate parts)) ∧
    List.Forall₂ PaddedAlternative parts d.alternatives

variable {s line : List Char} {rhs : Rhs} {d e : Definition}

/-! ## Lines that say something -/

theorem isSilent_iff :
    isSilent line = true ↔
      Blanks line ∨ ∃ before after, Blanks before ∧ line = before ++ ';' :: after := by
  induction line with
  | nil => simp [isSilent, Blanks]
  | cons c rest ih =>
      have semicolon : isBlank ';' = false := by decide
      by_cases blank : isBlank c = true
      · have shorter : isSilent (c :: rest) = isSilent rest := by
          rw [isSilent, isSilent, List.dropWhile_cons_of_pos blank]
        have tail : Blanks (c :: rest) ↔ Blanks rest := by simp [Blanks, blank]
        rw [shorter, ih, tail]
        refine or_congr_right ⟨?_, ?_⟩
        · rintro ⟨before, after, blanks, rfl⟩
          exact ⟨c :: before, after, List.forall_mem_cons.2 ⟨blank, blanks⟩, rfl⟩
        · rintro ⟨before, after, blanks, same⟩
          cases before with
          | nil =>
              obtain ⟨rfl, -⟩ := List.cons.inj same
              rw [semicolon] at blank
              exact absurd blank Bool.false_ne_true
          | cons first others =>
              obtain ⟨-, rfl⟩ := List.cons.inj same
              exact ⟨others, after, (List.forall_mem_cons.1 blanks).2, rfl⟩
      · rw [isSilent, List.dropWhile_cons_of_neg blank]
        constructor
        · intro opening
          obtain rfl : c = ';' := by simpa using opening
          exact .inr ⟨[], rest, by simp [Blanks], rfl⟩
        · rintro (blanks | ⟨before, after, blanks, same⟩)
          · exact absurd (blanks c (by simp)) blank
          · cases before with
            | nil =>
                obtain ⟨rfl, -⟩ := List.cons.inj same
                rfl
            | cons first others =>
                obtain ⟨rfl, -⟩ := List.cons.inj same
                exact absurd (blanks c (by simp)) blank

theorem speaks_iff : Speaks line ↔ isSilent line = false := by
  rw [Speaks, ← not_or, ← isSilent_iff, Bool.not_eq_true]

instance (line : List Char) : Decidable (Speaks line) := decidable_of_iff _ speaks_iff.symm

theorem filter_speaks (lines : List (List Char)) :
    (lines.filter fun line => Speaks line) = ruleLines lines := by
  apply List.filter_congr
  intro line _
  rw [Bool.eq_iff_iff, decide_eq_true_eq, speaks_iff, Bool.not_eq_true']

/-! ## Alternatives -/

theorem isName_iff {text : String} : IsName text ↔ (Token.name text).IsWritten := by
  simp only [IsName, Token.IsWritten, Token.isNameChar, Bool.not_eq_true', Bool.or_eq_false_iff,
    beq_eq_false_iff_ne, and_assoc]

/-- Between two names there are blanks, or else there is only one name. -/
theorem startsNoName_gap_iff {gap : List Char} {text : String} (name : IsName text)
    (blanks : Blanks gap) : Token.StartsNoName (gap ++ (text.toList ++ s)) ↔ gap ≠ [] := by
  cases gap with
  | nil =>
      obtain ⟨nonempty, ordinary⟩ := isName_iff.1 name
      cases front : text.toList with
      | nil => exact absurd (String.toList_eq_nil_iff.1 front) nonempty
      | cons c rest =>
          have first := ordinary c (by simp [front])
          simp [Token.StartsNoName, first]
  | cons c rest =>
      have free := Token.isNameChar_of_isBlank (blanks c (by simp))
      exact iff_of_true (Token.startsNoName_cons free) (by simp)

/-- **The texts of an alternative are those that spell its tokens**, if its word could be a
token of a sentence. -/
theorem paddedAlternative_iff :
    PaddedAlternative s rhs ↔ Token.Spells s rhs.tokens ∧ rhs.IsChecked := by
  cases rhs with
  | binary left right =>
      simp only [Rhs.tokens, Token.spells_cons_iff, Token.spells_nil_iff]
      constructor
      · rintro ⟨before, core, after, areBefore, areAfter, rfl, written⟩
        cases written with
        | @binary left right gap isLeft isRight some_ blanks =>
            exact ⟨⟨before, gap ++ (right.toList ++ after), areBefore, by simp [Token.render],
              isName_iff.1 isLeft, (startsNoName_gap_iff isRight blanks).2 some_,
              gap, after, blanks, rfl, isName_iff.1 isRight, Token.startsNoName_of_blanks areAfter,
              areAfter⟩, trivial⟩
      · rintro ⟨⟨before, _, areBefore, rfl, isLeft, apart, gap, after, blanks, rfl, isRight, -,
          areAfter⟩, -⟩
        have isRight := isName_iff.2 isRight
        have some_ := (startsNoName_gap_iff isRight blanks).1 apart
        exact ⟨before, _, after, areBefore, areAfter, by simp [Token.render],
          .binary (isName_iff.2 isLeft) isRight some_ blanks⟩
  | lexical word =>
      simp only [Rhs.tokens, Token.spells_cons_iff, Token.spells_nil_iff]
      constructor
      · rintro ⟨before, core, after, areBefore, areAfter, rfl, written⟩
        cases written with
        | lexical nonempty each =>
            refine ⟨⟨before, after, areBefore, by simp [Token.render], ?_, trivial, areAfter⟩,
              nonempty, fun c inside => (each c inside).2⟩
            exact fun inside => (each _ inside).1 rfl
      · rintro ⟨⟨before, after, areBefore, rfl, free, -, areAfter⟩, nonempty, visible⟩
        refine ⟨before, _, after, areBefore, areAfter, by simp [Token.render],
          .lexical nonempty fun c inside => ⟨?_, visible c inside⟩⟩
        rintro rfl
        exact free inside

theorem forall₂_paddedAlternative_iff {parts : List (List Char)} {alternatives : List Rhs} :
    List.Forall₂ PaddedAlternative parts alternatives ↔
      List.Forall₂ Token.Spells parts (alternatives.map Rhs.tokens) ∧
        ∀ rhs ∈ alternatives, rhs.IsChecked := by
  induction alternatives generalizing parts with
  | nil => simp
  | cons rhs rest ih =>
      simp only [List.map_cons, List.forall₂_cons_right_iff, paddedAlternative_iff, ih,
        List.forall_mem_cons]
      constructor
      · rintro ⟨part, others, ⟨spelled, checked⟩, ⟨eachSpelled, eachChecked⟩, rfl⟩
        exact ⟨⟨part, others, spelled, eachSpelled, rfl⟩, checked, eachChecked⟩
      · rintro ⟨⟨part, others, spelled, eachSpelled, rfl⟩, checked, eachChecked⟩
        exact ⟨part, others, ⟨spelled, checked⟩, ⟨eachSpelled, eachChecked⟩, rfl⟩

/-! ## Rule lines -/

/-- **A line defines something just when it has the form of a rule line.** -/
theorem ofText_eq_ok_iff_ruleText : Definition.ofText line = .ok d ↔ RuleText line d := by
  simp only [Definition.ofText_eq_ok_iff, Definition.map_alternative_splitOn_iff]
  constructor
  · rintro ⟨_, spelled, some_, rfl, checked⟩
    obtain ⟨before, _, areBefore, rfl, name, -, spelledSign⟩ := Token.spells_cons_iff.1 spelled
    obtain ⟨between, _, areBetween, rfl, -, -, spelledBody⟩ := Token.spells_cons_iff.1 spelledSign
    obtain ⟨parts, rfl, each⟩ := (Token.spells_intercalate_iff (by simpa using some_)).1 spelledBody
    refine ⟨before, between, parts, areBefore, areBetween, isName_iff.2 name, ?_, rfl,
      forall₂_paddedAlternative_iff.2 ⟨each, checked⟩⟩
    rintro rfl
    exact some_ (by simpa using each)
  · rintro ⟨before, between, parts, areBefore, areBetween, name, some_, rfl, each⟩
    obtain ⟨spelled, checked⟩ := forall₂_paddedAlternative_iff.1 each
    have alternatives : d.alternatives ≠ [] := by
      intro none
      rw [none, List.forall₂_nil_right_iff] at each
      exact some_ each
    have spelledBody :=
      (Token.spells_intercalate_iff (by simpa using alternatives)).2 ⟨parts, rfl, spelled⟩
    have spelledSign := (Token.Spells.equals spelledBody).blanks areBetween
    have ends : (Token.name d.lhs.name).EndsBefore
        (between ++ '=' :: ['|'].intercalate parts) :=
      Token.startsNoName_blanks_append areBetween (Token.startsNoName_cons (by decide))
    have spelledName := Token.spells_cons_iff.2
      ⟨before, _, areBefore, rfl, isName_iff.1 name, ends, spelledSign⟩
    exact ⟨_, spelledName, alternatives, rfl, checked⟩

/-- A line is at most one rule line. -/
theorem RuleText.unique (h : RuleText line d) (other : RuleText line e) : d = e :=
  Except.ok.inj ((ofText_eq_ok_iff_ruleText.2 h).symm.trans (ofText_eq_ok_iff_ruleText.2 other))

/-! ## Files -/

/-- The lines of a text that are neither blank nor comments. -/
def spokenLines (text : String) : List (List Char) :=
  (Text.lines text.toList).filter fun line => Speaks line

/-- The definitions of a text are those of its rule lines, in their order. -/
theorem defines_iff {text : String} {definitions : List Definition} :
    Defines (Text.lines text.toList) definitions ↔
      List.Forall₂ RuleText (spokenLines text) definitions := by
  rw [Defines, spokenLines, filter_speaks, ← List.forall₂_eq_eq_eq, List.forall₂_map_left_iff,
    List.forall₂_map_right_iff]
  simp only [ofText_eq_ok_iff_ruleText]

theorem exists_defines_iff {text : String} :
    (∃ definitions, List.Forall₂ RuleText (spokenLines text) definitions) ↔
      ∀ line ∈ spokenLines text, ∃ d, RuleText line d := by
  induction spokenLines text with
  | nil => simp
  | cons line rest ih =>
      rw [List.forall_mem_cons, ← ih]
      constructor
      · rintro ⟨definitions, each⟩
        obtain ⟨d, others, isRule, eachOther, rfl⟩ := List.forall₂_cons_left_iff.1 each
        exact ⟨⟨d, isRule⟩, others, eachOther⟩
      · rintro ⟨⟨d, isRule⟩, others, each⟩
        exact ⟨d :: others, .cons isRule each⟩

theorem mem_iff_of_forall₂ {lines : List (List Char)} {definitions : List Definition}
    (each : List.Forall₂ RuleText lines definitions) :
    d ∈ definitions ↔ ∃ line ∈ lines, RuleText line d := by
  induction each with
  | nil => simp
  | @cons line e lines definitions isRule _ ih =>
      have here : d = e ↔ RuleText line d :=
        ⟨fun same => same ▸ isRule, fun other => other.unique isRule⟩
      simp only [List.mem_cons, exists_eq_or_imp, ih, here]

/-- The names used in the alternatives are left-hand names of rule lines. -/
theorem closed_iff {lines : List (List Char)} {definitions : List Definition}
    (each : List.Forall₂ RuleText lines definitions) :
    Closed definitions ↔
      ∀ line ∈ lines, ∀ d, RuleText line d → ∀ name ∈ d.used,
        ∃ other ∈ lines, ∃ e, RuleText other e ∧ e.lhs = name := by
  have defined (name : Nonterminal) : name ∈ definitions.map Definition.lhs ↔
      ∃ other ∈ lines, ∃ e, RuleText other e ∧ e.lhs = name := by
    simp only [List.mem_map, mem_iff_of_forall₂ each]
    constructor
    · rintro ⟨e, ⟨other, isLine, isRule⟩, same⟩
      exact ⟨other, isLine, e, isRule, same⟩
    · rintro ⟨other, isLine, e, isRule, same⟩
      exact ⟨e, ⟨other, isLine, isRule⟩, same⟩
  simp only [Closed, defined, mem_iff_of_forall₂ each]
  constructor
  · intro closed line isLine d isRule
    exact closed d ⟨line, isLine, isRule⟩
  · rintro closed d ⟨line, isLine, isRule⟩
    exact closed line isLine d isRule

theorem head?_lhs_eq_start {definitions : List Definition} (some_ : definitions ≠ []) :
    definitions.head?.map Definition.lhs = some (Grammar.ofDefinitions definitions).start := by
  cases definitions with
  | nil => exact absurd rfl some_
  | cons d rest => rfl

/-- **A text loads just when it has the format**: each line that is neither blank nor a comment
is a rule line, there is such a line, and every name in an alternative is the left-hand name of
one.  A line is a rule line in one way only.  The grammar starts with the left-hand name of the
first rule line and registers the alternatives in the order of the text, without repetitions. -/
theorem load_iff_format (path text : String) :
    ((∃ g, load path text = .ok g) ↔
      (∀ line ∈ spokenLines text, ∃ d, RuleText line d) ∧
      spokenLines text ≠ [] ∧
      ∀ line ∈ spokenLines text, ∀ d, RuleText line d → ∀ name ∈ d.used,
        ∃ other ∈ spokenLines text, ∃ e, RuleText other e ∧ e.lhs = name) ∧
    (∀ line d e, RuleText line d → RuleText line e → d = e) ∧
    ∀ g, load path text = .ok g →
      ∃ definitions, List.Forall₂ RuleText (spokenLines text) definitions ∧
        definitions.head?.map Definition.lhs = some g.start ∧
        g.rules.toList = (definitions.flatMap Definition.rules).eraseDups := by
  refine ⟨⟨?_, ?_⟩, fun _ _ _ => RuleText.unique, ?_⟩
  · rintro ⟨g, loaded⟩
    obtain ⟨definitions, defines, some_, closed, -⟩ := load_eq_ok_iff.1 loaded
    have each := defines_iff.1 defines
    refine ⟨exists_defines_iff.1 ⟨definitions, each⟩, ?_, (closed_iff each).1 closed⟩
    intro none
    rw [none, List.forall₂_nil_left_iff] at each
    exact some_ each
  · rintro ⟨formed, some_, closed⟩
    obtain ⟨definitions, each⟩ := exists_defines_iff.2 formed
    refine ⟨_, load_eq_ok_iff.2
      ⟨definitions, defines_iff.2 each, ?_, (closed_iff each).2 closed, rfl⟩⟩
    intro none
    rw [none, List.forall₂_nil_right_iff] at each
    exact some_ each
  · intro g loaded
    obtain ⟨definitions, defines, some_, -, rfl⟩ := load_eq_ok_iff.1 loaded
    refine ⟨definitions, defines_iff.1 defines, head?_lhs_eq_start some_, ?_⟩
    rw [Grammar.ofDefinitions, RuleSet.toList_ofList]

/-- A comment, a blank line, the marks of the format inside quotes, a repetition, and a last line
that no line feed closes. -/
def markedText : String := "; S\n\nS\t=A A|\"|=;\" \r\n S = A A\nA=\"a\""

def marked : List Definition :=
  [⟨⟨"S"⟩, [.binary ⟨"A"⟩ ⟨"A"⟩, .lexical "|=;"]⟩, ⟨⟨"S"⟩, [.binary ⟨"A"⟩ ⟨"A"⟩]⟩,
    ⟨⟨"A"⟩, [.lexical "a"]⟩]

theorem forall₂_markedText : List.Forall₂ RuleText (spokenLines markedText) marked := by
  have lines : spokenLines markedText =
      ["S\t=A A|\"|=;\" ".toList, " S = A A".toList, "A=\"a\"".toList] := by decide
  have plain {word : String} (every : word.toList.all fun c => c != '"' && !isBlank c) :
      ∀ c ∈ word.toList, c ≠ '"' ∧ isBlank c = false := by
    simpa using every
  have pair := @AlternativeText.binary "A" "A" [' '] (by decide) (by decide) (by decide) (by decide)
  have marks := @AlternativeText.lexical "|=;" (by decide) (plain (by decide))
  have word := @AlternativeText.lexical "a" (by decide) (plain (by decide))
  rw [lines]
  refine .cons ?_ (.cons ?_ (.cons ?_ .nil))
  · refine ⟨[], ['\t'], ["A A".toList, "\"|=;\" ".toList], by decide, by decide, by decide,
      by decide, by decide, ?_⟩
    exact .cons ⟨[], _, [], by decide, by decide, by decide, pair⟩
      (.cons ⟨[], _, [' '], by decide, by decide, by decide, marks⟩ .nil)
  · refine ⟨[' '], [' '], [" A A".toList], by decide, by decide, by decide, by decide,
      by decide, ?_⟩
    exact .cons ⟨[' '], _, [], by decide, by decide, by decide, pair⟩ .nil
  · refine ⟨[], [], ["\"a\"".toList], by decide, by decide, by decide, by decide, by decide, ?_⟩
    exact .cons ⟨[], _, [], by decide, by decide, by decide, word⟩ .nil

theorem load_iff_format_marked :
    ∃ g, load "file" markedText = .ok g ∧ g.start = ⟨"S"⟩ ∧
      g.rules.toList =
        [⟨⟨"S"⟩, .binary ⟨"A"⟩ ⟨"A"⟩⟩, ⟨⟨"S"⟩, .lexical "|=;"⟩, ⟨⟨"A"⟩, .lexical "a"⟩] := by
  obtain ⟨accepts, unique, loads⟩ := load_iff_format "file" markedText
  have each := forall₂_markedText
  obtain ⟨g, loaded⟩ := accepts.2 ⟨exists_defines_iff.1 ⟨_, each⟩, by decide,
    (closed_iff each).1 (by decide)⟩
  obtain ⟨definitions, others, start, rules⟩ := loads g loaded
  obtain rfl : definitions = marked :=
    List.right_unique_forall₂' (fun line d e => unique line d e) others each
  refine ⟨g, loaded, (Option.some.inj start).symm, rules.trans (by decide)⟩

end PhraseChart.GrammarFile
