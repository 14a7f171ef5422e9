/-
# PhraseChart.Proofs.GrammarFile.Loaded -- what is known of a grammar from a file

A file whose lines are read without a fault has no line that could not be decoded, so what is
known of the definitions of a text holds of those of a file as well, whether it was given as
characters or as bytes.  Each of them could be written again, so the left-hand sides of the rules
are names (`isName_of_entries`), and their words could stand in a sentence (`isChecked_of_entries`).

The check of the names passes from the lines to the rules: whatever a rule uses has a rule
(`closed_of_entries`), and so has the start symbol.
-/
import PhraseChart.Proofs.GrammarFile.RoundTrip
import PhraseChart.Proofs.Text.Encoding

namespace PhraseChart.GrammarFile

set_option autoImplicit false

variable {path : String} {number : Nat} {lines : List PhysicalLine} {es : List Entry}

/-- A line that could not be read would have been a fault. -/
theorem exists_texts_of_readLines (h : readLines path number lines = es.map .ok) :
    ∃ texts : List (List Char), lines = texts.map .ok := by
  induction lines generalizing number es with
  | nil => exact ⟨[], rfl⟩
  | cons line rest ih =>
      rw [readLines] at h
      cases line with
      | error error =>
          simp only [readLine] at h
          cases es <;> simp at h
      | ok line =>
          obtain ⟨others, tail⟩ : ∃ others : List Entry,
              readLines path (number + 1) rest = others.map .ok := by
            cases reading : readLine path number (.ok line) with
            | none => exact ⟨es, by simpa [reading] using h⟩
            | some entry =>
                rw [reading] at h
                cases es with
                | nil => simp at h
                | cons _ others => exact ⟨others, (List.cons.inj h).2⟩
          obtain ⟨texts, rfl⟩ := ih tail
          exact ⟨line :: texts, rfl⟩

theorem isWritable_of_entries (loaded : entries path lines = .ok es) :
    ∀ d ∈ es.map Entry.definition, d.IsWritable := by
  obtain ⟨read, -, -⟩ := entries_eq_ok_iff.1 loaded
  obtain ⟨texts, rfl⟩ := exists_texts_of_readLines read
  exact isWritable_of_defines (defines_of_entries read)

/-- The words of a grammar from a file could be tokens of a sentence. -/
theorem isChecked_of_entries (loaded : entries path lines = .ok es) {rule : Rule}
    (member : rule ∈ (grammar es).rules.toList) : rule.rhs.IsChecked := by
  rw [grammar_eq, Grammar.mem_ofDefinitions] at member
  obtain ⟨d, isDefinition, -, isAlternative⟩ := member
  exact ((isWritable_of_entries loaded d isDefinition).each _ isAlternative).2

/-- The left-hand sides of a grammar from a file are names. -/
theorem isName_of_entries (loaded : entries path lines = .ok es) {rule : Rule}
    (member : rule ∈ (grammar es).rules.toList) : (Token.name rule.lhs.name).IsWritten := by
  rw [grammar_eq, Grammar.mem_ofDefinitions] at member
  obtain ⟨d, isDefinition, same, -⟩ := member
  exact same ▸ (isWritable_of_entries loaded d isDefinition).isName

/-- The nonterminals that a grammar from a file defines are the left-hand sides of its entries. -/
theorem defines_of_entries_iff (loaded : entries path lines = .ok es) {name : Nonterminal} :
    (grammar es).rules.defines name = true ↔
      name ∈ (es.map Entry.definition).map Definition.lhs := by
  have some_ : ∀ d ∈ es.map Entry.definition, d.alternatives ≠ [] := fun d member =>
    (isWritable_of_entries loaded d member).nonempty
  rw [grammar_eq, (Grammar.indexed_ofDefinitions _).defines_iff, ← RuleSet.mem_nonterminals,
    Grammar.mem_nonterminals_ofDefinitions some_]

/-- The check of the lines is one of the rules: each nonterminal that is used is defined. -/
theorem closed_of_entries (loaded : entries path lines = .ok es) :
    (grammar es).rules.Closed := by
  obtain ⟨-, -, checked⟩ := entries_eq_ok_iff.1 loaded
  intro rule member name used
  rw [grammar_eq, Grammar.mem_ofDefinitions] at member
  obtain ⟨d, isDefinition, -, isAlternative⟩ := member
  have isUsed : name ∈ d.used := List.mem_flatMap.2 ⟨rule.rhs, isAlternative, used⟩
  exact (defines_of_entries_iff loaded).2
    (undefinedUses_eq_nil_iff.1 checked d isDefinition name isUsed)

/-- The start symbol is the left-hand side of the first entry. -/
theorem defines_start_of_entries (loaded : entries path lines = .ok es) :
    (grammar es).rules.defines (grammar es).start = true := by
  obtain ⟨-, some_, -⟩ := entries_eq_ok_iff.1 loaded
  rw [defines_of_entries_iff loaded]
  cases es with
  | nil => exact absurd rfl some_
  | cons entry rest => exact List.mem_cons_self

/-- A file that is loaded could be read. -/
theorem fileEntries_eq_ok_iff {content : Except ReadError (List UInt8)} :
    fileEntries path content = .ok es ↔
      ∃ bytes, content = .ok bytes ∧ entries path (physicalByteLines bytes) = .ok es := by
  cases content <;> simp [fileEntries]

/-- Definitions that can be written load from the file that lists them. -/
theorem exists_fileEntries {definitions : List Definition}
    (writable : ∀ d ∈ definitions, d.IsWritable) (some_ : definitions ≠ [])
    (closed : Closed definitions) (path : String) :
    ∃ es, fileEntries path
        (.ok (Text.encode (definitions.flatMap fun d => d.render.toList ++ ['\n']))) = .ok es ∧
      grammar es = Grammar.ofDefinitions definitions := by
  have oneLine {d : Definition} (member : d ∈ definitions) := Definition.onlySpaces_render
    (writable d member)
  have split : physicalByteLines
      (Text.encode (definitions.flatMap fun d => d.render.toList ++ ['\n'])) =
        (definitions.map fun d => d.render.toList).map .ok := by
    rw [← physicalByteLines_encode, List.flatMap_map]
    · exact List.forall_mem_map.2 fun d member => (oneLine member).not_mem (by decide) (by decide)
    · exact List.forall_mem_map.2 fun d member final =>
        (oneLine member).not_mem (by decide) (by decide) (List.mem_of_getLast? final)
  obtain ⟨es, read, rfl⟩ := exists_entries_of_defines (defines_render writable) path 1
  refine ⟨es, fileEntries_eq_ok_iff.2 ⟨_, rfl, ?_⟩, grammar_eq es⟩
  rw [split]
  exact entries_eq_ok_iff.2 ⟨read, by simpa using some_, undefinedUses_eq_nil_iff.2 closed⟩

/-- The grammar comes from a text or from a file. -/
def IsLoaded (g : Grammar) : Prop :=
  ∃ path, (∃ text, load path text = .ok g) ∨ ∃ content, loadFile path content = .ok g

theorem load_eq_ok_iff_entries {text : String} {g : Grammar} :
    load path text = .ok g ↔
      ∃ es, entries path (physicalLines text) = .ok es ∧ grammar es = g := by
  rw [load]
  cases entries path (physicalLines text) <;> simp [Except.map]

/-- Either way a grammar is made of the entries of some physical lines. -/
theorem IsLoaded.exists_entries {g : Grammar} (h : IsLoaded g) :
    ∃ path lines es, entries path lines = .ok es ∧ grammar es = g := by
  obtain ⟨path, ⟨text, loaded⟩ | ⟨content, loaded⟩⟩ := h
  · obtain ⟨es, read, rfl⟩ := load_eq_ok_iff_entries.1 loaded
    exact ⟨path, _, es, read, rfl⟩
  · cases read : fileEntries path content with
    | error faults => simp [loadFile, read, Except.map] at loaded
    | ok es =>
        obtain rfl : grammar es = g := by simpa [loadFile, read, Except.map] using loaded
        obtain ⟨bytes, -, fromLines⟩ := fileEntries_eq_ok_iff.1 read
        exact ⟨path, _, es, fromLines, rfl⟩

end PhraseChart.GrammarFile
