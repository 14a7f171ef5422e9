/-
# PhraseChart.Proofs.GrammarFile.Reading -- when a grammar file loads, and to what

Loading reads lines into entries and entries into rules, and gives up in three
places.  `load_eq_ok_iff` puts this into one condition on the text: its rule lines
define something each (`Defines`), there is one, and every name that they use is
defined (`Closed`).  The grammar is then a function of the definitions alone
(`Grammar.ofDefinitions`); paths and line numbers are lost on it.

`entries_eq_ok_iff` is the step before, for physical lines that may also have failed
to be read.
-/
import Mathlib.Data.List.Basic
import PhraseChart.GrammarFile.Loading

namespace PhraseChart

set_option autoImplicit false

/-- The grammar of definitions in the order of writing. -/
def Grammar.ofDefinitions (definitions : List Definition) : Grammar :=
  { start := (definitions.head?.map Definition.lhs).getD ⟨""⟩
    rules := .ofList (definitions.flatMap Definition.rules) }

namespace GrammarFile

variable {path : String} {number : Nat} {definitions : List Definition}

/-- Every name that an alternative uses is the left-hand side of a definition. -/
def Closed (definitions : List Definition) : Prop :=
  ∀ d ∈ definitions, ∀ name ∈ d.used, name ∈ definitions.map Definition.lhs

instance (definitions : List Definition) : Decidable (Closed definitions) :=
  inferInstanceAs (Decidable (∀ d ∈ definitions, ∀ name ∈ d.used, _))

/-- The lines that are neither blank nor comments. -/
def ruleLines (lines : List (List Char)) : List (List Char) :=
  lines.filter fun line => !isSilent line

/-- The rule lines among the lines read without a fault, as these definitions. -/
def Defines (lines : List (List Char)) (definitions : List Definition) : Prop :=
  (ruleLines lines).map Definition.ofText = definitions.map .ok

/-! ## Readings without faults -/

theorem filterMap_faultOf?_ok (entries : List Entry) :
    (entries.map Except.ok).filterMap faultOf? = [] := by
  rw [List.filterMap_map, List.filterMap_eq_nil_iff]
  intro entry _
  rfl

theorem filterMap_entryOf?_ok (entries : List Entry) :
    (entries.map Except.ok).filterMap entryOf? = entries := by
  rw [List.filterMap_map]
  exact List.filterMap_some

/-- Readings without a fault are entries. -/
theorem eq_map_ok_of_no_fault {readings : List (Except LocatedFault Entry)}
    (h : readings.filterMap faultOf? = []) :
    readings = (readings.filterMap entryOf?).map .ok := by
  induction readings with
  | nil => rfl
  | cons reading rest ih =>
      cases reading with
      | error fault => simp [faultOf?] at h
      | ok entry =>
          have tail : rest.filterMap faultOf? = [] := by simpa [faultOf?] using h
          have kept : entryOf? (.ok entry) = some entry := rfl
          rw [List.filterMap_cons_some kept, List.map_cons, ← ih tail]

theorem entries_eq_ok_iff {lines : List PhysicalLine} {es : List Entry} :
    entries path lines = .ok es ↔
      readLines path 1 lines = es.map .ok ∧ es ≠ [] ∧ undefinedUses path es = [] := by
  unfold entries
  constructor
  · intro h
    by_cases faults : (readLines path 1 lines).filterMap faultOf? = []
    · by_cases none : (readLines path 1 lines).filterMap entryOf? = []
      · simp [faults, none] at h
      · by_cases undefined :
            undefinedUses path ((readLines path 1 lines).filterMap entryOf?) = []
        · simp only [faults, none, undefined, List.isEmpty_nil, Bool.not_true, Bool.false_eq_true,
            if_false, List.isEmpty_iff, Except.ok.injEq] at h
          subst h
          exact ⟨eq_map_ok_of_no_fault faults, none, undefined⟩
        · simp [faults, none, undefined] at h
    · simp [faults] at h
  · rintro ⟨read, some_, closed⟩
    simp only [read, filterMap_faultOf?_ok, filterMap_entryOf?_ok]
    simp [some_, closed]

/-! ## Entries and definitions -/

theorem grammar_eq (es : List Entry) :
    grammar es = Grammar.ofDefinitions (es.map Entry.definition) := by
  have start : (es.head?.map fun entry => entry.definition.lhs) =
      (es.map Entry.definition).head?.map Definition.lhs := by
    cases es <;> rfl
  have rules : (writtenRules es).map Prod.snd =
      (es.map Entry.definition).flatMap Definition.rules := by
    rw [writtenRules, List.map_flatMap, List.flatMap_map]
    apply List.flatMap_congr
    intro entry _
    exact List.map_map.trans (List.map_id _)
  rw [grammar, start, rules]
  rfl

theorem undefinedUses_eq_nil_iff {es : List Entry} :
    undefinedUses path es = [] ↔ Closed (es.map Entry.definition) := by
  have defined : (es.map fun entry => entry.definition.lhs) =
      (es.map Entry.definition).map Definition.lhs := by
    rw [List.map_map]
    rfl
  simp only [undefinedUses, defined, List.flatMap_eq_nil_iff, List.map_eq_nil_iff,
    List.filter_eq_nil_iff, Closed, List.forall_mem_map, Bool.not_eq_true', Bool.not_eq_false,
    List.contains_iff_mem]

theorem exists_entries_of_defines {lines : List (List Char)} (h : Defines lines definitions)
    (path : String) (number : Nat) :
    ∃ es : List Entry, readLines path number (lines.map .ok) = es.map .ok ∧
      es.map Entry.definition = definitions := by
  induction lines generalizing number definitions with
  | nil =>
      obtain rfl : definitions = [] := by simpa [Defines, ruleLines, eq_comm] using h
      exact ⟨[], rfl, rfl⟩
  | cons line rest ih =>
      rw [List.map_cons, readLines]
      by_cases silent : isSilent line = true
      · have tail : Defines rest definitions := by simpa [Defines, ruleLines, silent] using h
        simp only [readLine, silent, if_true]
        exact ih tail (number + 1)
      · cases definitions with
        | nil => simp [Defines, ruleLines, silent] at h
        | cons d others =>
            have both : Definition.ofText line = .ok d ∧ Defines rest others := by
              simpa [Defines, ruleLines, silent] using h
            obtain ⟨es, read, same⟩ := ih both.2 (number + 1)
            refine ⟨⟨number, d⟩ :: es, ?_, by rw [List.map_cons, same]⟩
            simp only [readLine, silent, Bool.false_eq_true, if_false, both.1, read, List.map_cons]

theorem defines_of_entries {lines : List (List Char)} {es : List Entry}
    (h : readLines path number (lines.map .ok) = es.map .ok) :
    Defines lines (es.map Entry.definition) := by
  induction lines generalizing number es with
  | nil =>
      obtain rfl : es = [] := by simpa [readLines, eq_comm] using h
      rfl
  | cons line rest ih =>
      rw [List.map_cons, readLines] at h
      by_cases silent : isSilent line = true
      · simp only [readLine, silent, if_true] at h
        have tail := ih h
        simpa [Defines, ruleLines, silent] using tail
      · cases read : Definition.ofText line with
        | error fault =>
            simp only [readLine, silent, read, Bool.false_eq_true, if_false] at h
            cases es <;> simp at h
        | ok d =>
            simp only [readLine, silent, read, Bool.false_eq_true, if_false] at h
            cases es with
            | nil => simp at h
            | cons entry others =>
                simp only [List.map_cons, List.cons.injEq, Except.ok.injEq] at h
                obtain ⟨rfl, tail⟩ := h
                have later := ih tail
                simpa [Defines, ruleLines, silent, read] using later

/-- **A text loads just when its rule lines define something each, there is one, and every
name that they use is defined.** -/
theorem load_eq_ok_iff {text : String} {g : Grammar} :
    load path text = .ok g ↔
      ∃ definitions, Defines (Text.lines text.toList) definitions ∧ definitions ≠ [] ∧
        Closed definitions ∧ g = Grammar.ofDefinitions definitions := by
  rw [load, physicalLines]
  constructor
  · intro h
    cases loaded : entries path ((Text.lines text.toList).map .ok) with
    | error faults => simp [loaded, Except.map] at h
    | ok es =>
        obtain rfl : grammar es = g := by simpa [loaded, Except.map] using h
        obtain ⟨read, some_, closed⟩ := entries_eq_ok_iff.1 loaded
        exact ⟨_, defines_of_entries read, by simpa using some_, undefinedUses_eq_nil_iff.1 closed,
          grammar_eq es⟩
  · rintro ⟨definitions, defines, some_, closed, rfl⟩
    obtain ⟨es, read, rfl⟩ := exists_entries_of_defines defines path 1
    have loaded := entries_eq_ok_iff.2
      ⟨read, by simpa using some_, undefinedUses_eq_nil_iff.2 closed⟩
    rw [loaded, Except.map, grammar_eq]

end GrammarFile

end PhraseChart
