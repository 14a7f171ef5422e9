/-
# PhraseChart.Proofs.GrammarFile.Refusal -- the faults of a grammar file

A file is refused in one of three ways, and a later one is looked for only when the earlier ones
do not arise: lines that are no rule lines, no rule line at all, and names that no line defines.
`entries_eq_error_iff` takes these apart.

Of the first kind there is one fault for each such line, in the order of the lines
(`forall₂_faultAt`).  Lines are numbered before any is dropped, so blank lines and comments count.
This holds for lines that could not be read as well.  Of the third kind there is one fault for each
use of a name, in the order of writing (`undefinedUses_eq`).

`load_eq_error_iff` says all this of a text.
-/
import PhraseChart.Proofs.GrammarFile.Faults
import PhraseChart.Proofs.GrammarFile.Format

namespace PhraseChart.GrammarFile

set_option autoImplicit false

open Text (Blanks)

variable {path : String} {number : Nat} {line : List Char} {lines : List PhysicalLine}
  {faults : List LocatedFault} {es : List Entry}

/-! ## Lines -/

instance (line : List Char) : Decidable (∃ d, RuleText line d) :=
  match read : Definition.ofText line with
  | .ok d => .isTrue ⟨d, ofText_eq_ok_iff_ruleText.1 read⟩
  | .error _ => .isFalse fun ⟨d, isRule⟩ => by
      rw [ofText_eq_ok_iff_ruleText.2 isRule] at read
      cases read

/-- A line without tokens has no fault. -/
theorem not_blanks_of_lineFault {fault : Fault} (h : LineFault line fault) : ¬ Blanks line := by
  intro blanks
  have spelled := Token.spells_nil_iff.2 blanks
  cases h with
  | unmatchedQuote odd =>
      have unread := Token.scan_eq_none_iff.2 odd
      rw [spelled.scan_eq] at unread
      cases unread
  | tokens other isFault =>
      obtain rfl := spelled.unique other
      cases isFault

theorem lineFault_unique {one two : Fault} (h : LineFault line one) (other : LineFault line two) :
    one = two := by
  have spoken := not_blanks_of_lineFault h
  exact Except.error.inj (((Definition.ofText_eq_error_iff spoken).2 h).symm.trans
    ((Definition.ofText_eq_error_iff spoken).2 other))

/-- **A line with a token is a rule line unless it has a fault.** -/
theorem exists_lineFault_iff (spoken : ¬ Blanks line) :
    (∃ fault, LineFault line fault) ↔ ¬ ∃ d, RuleText line d := by
  simp only [← Definition.ofText_eq_error_iff spoken, ← ofText_eq_ok_iff_ruleText]
  cases Definition.ofText line <;> simp

/-- What is wrong with a physical line, and where.  A line that could not be read is a fault of the
file as a whole. -/
inductive FaultAt (path : String) (number : Nat) : PhysicalLine → LocatedFault → Prop
  | unreadable {error : ReadError} :
      FaultAt path number (.error error) ⟨.file path, .unreadable error⟩
  | line {line : List Char} {fault : Fault} : LineFault line fault →
      FaultAt path number (.ok line) ⟨⟨path, number⟩, fault⟩

/-- A line that could not be read, or that speaks and is no rule line. -/
def IsFaulty : PhysicalLine → Prop
  | .error _ => True
  | .ok line => Speaks line ∧ ¬ ∃ d, RuleText line d

instance : DecidablePred IsFaulty
  | .error _ => .isTrue trivial
  | .ok line => inferInstanceAs (Decidable (Speaks line ∧ ¬ ∃ d, RuleText line d))

theorem FaultAt.unique {line : PhysicalLine} {one two : LocatedFault}
    (h : FaultAt path number line one) (other : FaultAt path number line two) : one = two := by
  cases h with
  | unreadable =>
      cases other
      rfl
  | line isFault =>
      cases other with
      | line isOther => rw [lineFault_unique isFault isOther]

/-! ### One line

A physical line contributes nothing, an entry or a fault. -/

section OneLine

variable {physical : PhysicalLine} {e : Entry} {f : LocatedFault}

theorem readLine_of_speaks (spoken : Speaks line) :
    readLine path number (.ok line) =
      match Definition.ofText line with
      | .error fault => some (.error { location := { path, line := number }, fault })
      | .ok definition => some (.ok { number, definition }) := by
  unfold readLine
  exact if_neg (Bool.eq_false_iff.1 (speaks_iff.1 spoken))

theorem readLine_of_not_speaks (silent : ¬ Speaks line) :
    readLine path number (.ok line) = none := by
  rw [speaks_iff, Bool.not_eq_false] at silent
  simp only [readLine, silent, if_true]

theorem readLine_eq_ok_iff :
    readLine path number (.ok line) = some (.ok e) ↔
      Speaks line ∧ e.number = number ∧ RuleText line e.definition := by
  by_cases spoken : Speaks line
  · rw [readLine_of_speaks spoken, ← ofText_eq_ok_iff_ruleText]
    obtain ⟨number', definition⟩ := e
    cases Definition.ofText line <;> simp [spoken, eq_comm]
  · simp [readLine_of_not_speaks spoken, spoken]

theorem readLine_eq_error_iff :
    readLine path number physical = some (.error f) ↔
      IsFaulty physical ∧ FaultAt path number physical f := by
  cases physical with
  | error error =>
      constructor
      · rintro ⟨⟩
        exact ⟨trivial, .unreadable⟩
      · rintro ⟨-, ⟨⟩⟩
        rfl
  | ok line =>
      constructor
      · intro read
        by_cases spoken : Speaks line
        · rw [readLine_of_speaks spoken] at read
          split at read
          · rename_i fault found
            cases read
            have isFault := (Definition.ofText_eq_error_iff spoken.1).1 found
            exact ⟨⟨spoken, (exists_lineFault_iff spoken.1).1 ⟨fault, isFault⟩⟩, .line isFault⟩
          · cases read
        · rw [readLine_of_not_speaks spoken] at read
          cases read
      · rintro ⟨⟨spoken, -⟩, ⟨⟩⟩
        rename_i fault isFault
        rw [readLine_of_speaks spoken, (Definition.ofText_eq_error_iff spoken.1).2 isFault]

/-- A faulty line has a fault. -/
theorem exists_readLine_of_isFaulty (h : IsFaulty physical) (path : String) (number : Nat) :
    ∃ f, readLine path number physical = some (.error f) := by
  cases physical with
  | error error => exact ⟨_, rfl⟩
  | ok line =>
      obtain ⟨spoken, noRule⟩ := h
      obtain ⟨fault, isFault⟩ := (exists_lineFault_iff spoken.1).2 noRule
      exact ⟨_, readLine_eq_error_iff.2 ⟨⟨spoken, noRule⟩, .line isFault⟩⟩

end OneLine

/-! ### All lines -/

/-- What stands in one list has its partner in the other. -/
theorem exists_mem_of_forall₂ {α β : Type} {R : α → β → Prop} {as : List α} {bs : List β} {a : α}
    (each : List.Forall₂ R as bs) (inside : a ∈ as) : ∃ b ∈ bs, R a b := by
  induction each with
  | nil => cases inside
  | @cons first b rest others related _ ih =>
      rcases List.mem_cons.1 inside with rfl | later
      · exact ⟨b, by simp, related⟩
      · obtain ⟨b, isOther, related⟩ := ih later
        exact ⟨b, by simp [isOther], related⟩

/-- **Every faulty line has one fault, in the order of the lines, and no other line has one.** -/
theorem forall₂_faultAt (path : String) (number : Nat) (lines : List PhysicalLine) :
    List.Forall₂ (fun numbered f => FaultAt path numbered.2 numbered.1 f)
      ((lines.zipIdx number).filter fun numbered => IsFaulty numbered.1)
      ((readLines path number lines).filterMap faultOf?) := by
  induction lines generalizing number with
  | nil => exact .nil
  | cons line rest ih =>
      rw [List.zipIdx_cons, readLines]
      by_cases faulty : IsFaulty line
      · obtain ⟨f, read⟩ := exists_readLine_of_isFaulty faulty path number
        simp only [read]
        rw [List.filter_cons_of_pos (by simpa using faulty)]
        exact .cons (readLine_eq_error_iff.1 read).2 (ih (number + 1))
      · rw [List.filter_cons_of_neg (by simpa using faulty)]
        cases read : readLine path number line with
        | none => exact ih (number + 1)
        | some reading =>
            cases reading with
            | error f => exact absurd (readLine_eq_error_iff.1 read).1 faulty
            | ok e => exact ih (number + 1)

/-- The faults of lines that are read in some way are those of the faulty ones. -/
theorem filterMap_faultOf?_eq_iff {α : Type} {given : List α} (read : α → PhysicalLine) :
    (readLines path number (given.map read)).filterMap faultOf? = faults ↔
      List.Forall₂ (fun numbered f => FaultAt path numbered.2 (read numbered.1) f)
        ((given.zipIdx number).filter fun numbered => IsFaulty (read numbered.1)) faults := by
  have each := forall₂_faultAt path number (given.map read)
  rw [List.zipIdx_map, List.filter_map, List.forall₂_map_left_iff] at each
  constructor
  · rintro rfl
    exact each
  · exact List.right_unique_forall₂' (fun _ _ _ one other => one.unique other) each

/-- The lines of a text that speak, each with its number among all lines. -/
def numberedLines (text : String) : List (List Char × Nat) :=
  ((Text.lines text.toList).zipIdx 1).filter fun numbered => Speaks numbered.1

/-- Lines without a fault are the rule lines of their entries. -/
theorem readLines_eq_map_ok_iff {texts : List (List Char)} :
    readLines path number (texts.map .ok) = es.map .ok ↔
      List.Forall₂ (fun numbered e => e.number = numbered.2 ∧ RuleText numbered.1 e.definition)
        ((texts.zipIdx number).filter fun numbered => Speaks numbered.1) es := by
  induction texts generalizing number es with
  | nil => simp [readLines, eq_comm]
  | cons line rest ih =>
      rw [List.map_cons, readLines, List.zipIdx_cons]
      by_cases spoken : Speaks line
      · rw [List.filter_cons_of_pos (by simpa using spoken), List.forall₂_cons_left_iff]
        cases read : readLine path number (.ok line) with
        | none =>
            rw [readLine_of_speaks spoken] at read
            split at read <;> cases read
        | some reading =>
            have isEntry (e : Entry) :
                e.number = number ∧ RuleText line e.definition ↔ reading = .ok e := by
              have := @readLine_eq_ok_iff path number line e
              rw [read, Option.some.injEq] at this
              simpa [spoken, eq_comm] using this.symm
            simp only [isEntry, ← ih, eq_comm (a := reading :: _), List.map_eq_cons_iff]
            constructor
            · rintro ⟨e, others, rfl, rfl, later⟩
              exact ⟨e, others, rfl, later.symm, rfl⟩
            · rintro ⟨e, others, rfl, later, rfl⟩
              exact ⟨e, others, rfl, rfl, later.symm⟩
      · rw [List.filter_cons_of_neg (by simpa using spoken), readLine_of_not_speaks spoken]
        exact ih

/-! ## Names that no line defines -/

/-- The uses of names in alternatives, each with the number of its line. -/
def uses (es : List Entry) : List (Nat × Nonterminal) :=
  es.flatMap fun e => e.definition.alternatives.flatMap fun rhs =>
    rhs.nonterminals.map fun name => (e.number, name)

/-- The uses of names that no entry defines. -/
def undefinedNames (es : List Entry) : List (Nat × Nonterminal) :=
  (uses es).filter fun use => ∀ e ∈ es, e.definition.lhs ≠ use.2

theorem undefinedUses_eq (path : String) (es : List Entry) :
    undefinedUses path es = (undefinedNames es).map fun use =>
      { location := { path, line := use.1 }, fault := .undefinedNonterminal use.2.name } := by
  have undefined (name : Nonterminal) :
      (!(es.map fun e => e.definition.lhs).contains name) =
        decide (∀ e ∈ es, e.definition.lhs ≠ name) := by
    rw [Bool.eq_iff_iff]
    simp
  simp only [undefinedUses, undefined, undefinedNames, uses, Definition.used, List.filter_flatMap,
    List.map_flatMap, List.filter_map, List.map_map]
  rfl

/-! ## Files -/

/-- **A file is refused for its faulty lines, or for having no rule line, or for names that no rule
line defines.** -/
theorem entries_eq_error_iff :
    entries path lines = .error faults ↔
      ((readLines path 1 lines).filterMap faultOf? ≠ [] ∧
        (readLines path 1 lines).filterMap faultOf? = faults) ∨
      ∃ es, readLines path 1 lines = es.map .ok ∧
        ((es = [] ∧ [⟨.file path, .noRules⟩] = faults) ∨
          (undefinedUses path es ≠ [] ∧ undefinedUses path es = faults)) := by
  unfold entries
  generalize readLines path 1 lines = readings
  by_cases none : readings.filterMap faultOf? = []
  · obtain ⟨es, rfl⟩ : ∃ es : List Entry, readings = es.map .ok := ⟨_, eq_map_ok_of_no_fault none⟩
    have unique (others : List Entry) :
        es.map (Except.ok : Entry → Except LocatedFault Entry) = others.map .ok ↔ es = others :=
      (List.map_injective_iff.2 fun _ _ => Except.ok.inj).eq_iff
    simp only [filterMap_faultOf?_ok, filterMap_entryOf?_ok, unique]
    by_cases empty : es = []
    · simp [empty, undefinedUses]
    · by_cases closed : undefinedUses path es = [] <;> simp [empty, closed]
  · have entryless (es : List Entry) : readings ≠ es.map .ok := by
      rintro rfl
      exact none (filterMap_faultOf?_ok es)
    simp [none, entryless]

/-- The lines that speak and are no rule lines. -/
def faultyLines (text : String) : List (List Char × Nat) :=
  (numberedLines text).filter fun numbered => ¬ ∃ d, RuleText numbered.1 d

/-- A fault of a line names something in the line: it blames neither the reader nor the file. -/
theorem reported_of_lineFault {fault : Fault} (h : LineFault line fault) :
    (fault ≠ .noTokens ∧ fault ≠ .unsplitAlternatives) ∧
      fault ≠ .noRules ∧ ∀ name, fault ≠ .undefinedNonterminal name := by
  cases h with
  | unmatchedQuote => exact ⟨⟨nofun, nofun⟩, nofun, nofun⟩
  | tokens _ isFault =>
      cases isFault with
      | missingNonterminal => exact ⟨⟨nofun, nofun⟩, nofun, nofun⟩
      | missingEquals => exact ⟨⟨nofun, nofun⟩, nofun, nofun⟩
      | alternative _ _ bad => cases bad <;> exact ⟨⟨nofun, nofun⟩, nofun, nofun⟩

theorem faultAt_ok_iff {f : LocatedFault} :
    FaultAt path number (.ok line) f ↔ f.location = ⟨path, number⟩ ∧ LineFault line f.fault := by
  obtain ⟨location, fault⟩ := f
  constructor
  · rintro ⟨⟩
    exact ⟨rfl, ‹_›⟩
  · rintro ⟨rfl, isFault⟩
    exact .line isFault

theorem filter_isFaulty (text : String) :
    (((Text.lines text.toList).zipIdx 1).filter fun numbered => IsFaulty (.ok numbered.1)) =
      faultyLines text := by
  rw [faultyLines, numberedLines, List.filter_filter]
  apply List.filter_congr
  intro numbered _
  simp only [IsFaulty, ← Bool.decide_and, and_comm]

theorem load_eq_error_iff_entries {text : String} :
    load path text = .error faults ↔ entries path (physicalLines text) = .error faults := by
  rw [load]
  cases entries path (physicalLines text) <;> simp [Except.map]

/-- The faults of the lines of a text are those of its faulty lines. -/
theorem lineFaults_eq_iff {text : String} :
    (readLines path 1 (physicalLines text)).filterMap faultOf? = faults ↔
      List.Forall₂ (fun numbered f => f.location = ⟨path, numbered.2⟩ ∧
        LineFault numbered.1 f.fault) (faultyLines text) faults := by
  rw [physicalLines, filterMap_faultOf?_eq_iff, filter_isFaulty]
  simp only [faultAt_ok_iff]

/-- **A text is refused with all its faults, each at its line and in order.**  Lines that speak and
are no rule lines have one fault each, at their number among all lines.  If there are none, but no
rule line either, that is the one fault.  Otherwise each use of a name that no rule line defines
is a fault.  There is always one, and none blames the reader. -/
theorem load_eq_error_iff (path text : String) :
    (∀ faults, load path text = .error faults ↔
      (faultyLines text ≠ [] ∧
        List.Forall₂ (fun numbered f => f.location = ⟨path, numbered.2⟩ ∧
          LineFault numbered.1 f.fault) (faultyLines text) faults) ∨
      (numberedLines text = [] ∧ faults = [⟨.file path, .noRules⟩]) ∨
      ∃ es : List Entry,
        List.Forall₂ (fun numbered e => e.number = numbered.2 ∧ RuleText numbered.1 e.definition)
          (numberedLines text) es ∧
        undefinedNames es ≠ [] ∧
        faults = (undefinedNames es).map fun use =>
          ⟨⟨path, use.1⟩, .undefinedNonterminal use.2.name⟩) ∧
    ∀ faults, load path text = .error faults → faults ≠ [] ∧
      ∀ f ∈ faults, f.fault ≠ .noTokens ∧ f.fault ≠ .unsplitAlternatives := by
  have lineFaults := lineFaults_eq_iff.1 (Eq.refl
    ((readLines path 1 (physicalLines text)).filterMap faultOf?))
  have faultless : (readLines path 1 (physicalLines text)).filterMap faultOf? = [] ↔
      faultyLines text = [] := by
    rw [← List.length_eq_zero_iff, ← lineFaults.length_eq, List.length_eq_zero_iff]
  have rules (es : List Entry) : readLines path 1 (physicalLines text) = es.map .ok ↔
      List.Forall₂ (fun numbered e => e.number = numbered.2 ∧ RuleText numbered.1 e.definition)
        (numberedLines text) es :=
    readLines_eq_map_ok_iff
  have refusal (faults : List LocatedFault) :=
    (@load_eq_error_iff_entries path faults text).trans entries_eq_error_iff
  constructor
  · intro faults
    rw [refusal, lineFaults_eq_iff, Ne, faultless]
    refine or_congr_right ?_
    simp only [rules, undefinedUses_eq, Ne, List.map_eq_nil_iff, and_or_left, exists_or]
    refine or_congr ?_ ?_
    · constructor
      · rintro ⟨_, none, rfl, rfl⟩
        exact ⟨List.forall₂_nil_right_iff.1 none, rfl⟩
      · rintro ⟨none, rfl⟩
        exact ⟨[], none ▸ .nil, rfl, rfl⟩
    · simp only [eq_comm]
  · intro faults refused
    rcases (refusal faults).1 refused with ⟨some_, rfl⟩ | ⟨es, -, ⟨-, rfl⟩ | ⟨some_, rfl⟩⟩
    · refine ⟨some_, fun f isFault => ?_⟩
      obtain ⟨numbered, -, -, hasFault⟩ := exists_mem_of_forall₂ lineFaults.flip isFault
      exact (reported_of_lineFault hasFault).1
    · refine ⟨List.cons_ne_nil _ _, fun f isFault => ?_⟩
      obtain rfl := List.mem_singleton.1 isFault
      exact ⟨nofun, nofun⟩
    · refine ⟨some_, fun f isFault => ?_⟩
      rw [undefinedUses_eq] at isFault
      obtain ⟨use, -, rfl⟩ := List.mem_map.1 isFault
      exact ⟨nofun, nofun⟩

/-! Lines 3 and 4 of this text are no rule lines.  The first has a blank in a word, which is
reported and not the equals sign in the alternative after it, and the other has a quote without a
partner. -/

def faultyText : String := "; c\n\nS=\"a b\"|=\n\"\n"

theorem lineFault_blankInWord :
    LineFault ['S', '=', '"', 'a', ' ', 'b', '"', '|', '='] (.blankInWord "a b") := by
  have ordinary : ∀ c ∈ ['S'], Token.isNameChar c = true :=
    List.forall_mem_singleton.2 (by decide)
  have spelled : Token.Spells ("S".toList ++ '=' :: '"' :: ("a b".toList ++ '"' :: ['|', '=']))
      [.name "S", .equals, .quoted "a b", .bar, .equals] :=
    .name (by decide) ordinary (Token.startsNoName_cons (by decide))
      (.equals (.quoted (by decide) (.bar (.equals .nil))))
  have isFault : TokensFault [.name "S", .equals, .quoted "a b", .bar, .equals]
      (.blankInWord "a b") :=
    @TokensFault.alternative "S" [] [.quoted "a b"] [[.equals]] _ nofun (by decide)
      (.blankInWord ⟨' ', by decide, by decide⟩)
  exact .tokens spelled isFault

theorem lineFault_unmatchedQuote : LineFault ['"'] .unmatchedQuote := .unmatchedQuote (by decide)

theorem faultyLines_faultyText :
    faultyLines faultyText =
      [(['S', '=', '"', 'a', ' ', 'b', '"', '|', '='], 3), (['"'], 4)] := by
  have numbered : numberedLines faultyText =
      [(['S', '=', '"', 'a', ' ', 'b', '"', '|', '='], 3), (['"'], 4)] := by decide
  have first := (exists_lineFault_iff (by decide)).1 ⟨_, lineFault_blankInWord⟩
  have second := (exists_lineFault_iff (by decide)).1 ⟨_, lineFault_unmatchedQuote⟩
  rw [faultyLines, numbered, List.filter_eq_self]
  simp only [List.forall_mem_cons, first, second, not_false_eq_true, decide_true, true_and]
  nofun

theorem load_faultyText :
    ∃ faults, load "file" faultyText = .error faults ∧
      faults = [⟨⟨"file", 3⟩, .blankInWord "a b"⟩, ⟨⟨"file", 4⟩, .unmatchedQuote⟩] ∧
      faults ≠ [] ∧ ∀ f ∈ faults, f.fault ≠ .noTokens ∧ f.fault ≠ .unsplitAlternatives := by
  obtain ⟨refused, blameless⟩ := load_eq_error_iff "file" faultyText
  rw [faultyLines_faultyText] at refused
  have faults := (refused [⟨⟨"file", 3⟩, .blankInWord "a b"⟩, ⟨⟨"file", 4⟩, .unmatchedQuote⟩]).2
    (.inl ⟨List.cons_ne_nil _ _, .cons ⟨rfl, lineFault_blankInWord⟩
      (.cons ⟨rfl, lineFault_unmatchedQuote⟩ .nil)⟩)
  exact ⟨_, faults, rfl, blameless _ faults⟩

end PhraseChart.GrammarFile
