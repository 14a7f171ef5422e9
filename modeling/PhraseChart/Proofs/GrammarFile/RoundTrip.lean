/-
# PhraseChart.Proofs.GrammarFile.RoundTrip -- a printed grammar loads again

Printing a rule set writes one line for each nonterminal, that is, one definition
(`RuleSet.definitions`).  For a rule set that was loaded these definitions satisfy all
that loading asks for (`RuleSet.Printable`): their symbols can be written, because they
have been read, and every name they use is defined, because it was.

What comes back is not the same rule set, since a file may define a nonterminal on
several lines with other lines between them, and printing brings these together.
`load_render` says what does come back: the rules grouped by their left-hand sides, with
the same start symbol.  A second round changes nothing any more.
-/
import PhraseChart.Proofs.Chart.Exactness
import PhraseChart.Proofs.Grammar.Grouping
import PhraseChart.Proofs.GrammarFile.Reading
import PhraseChart.Proofs.GrammarFile.Writing
import PhraseChart.Proofs.Text.Lines

namespace PhraseChart

set_option autoImplicit false

/-! ## What is printed -/

namespace RuleSet

variable {s : RuleSet}

/-- The definitions whose lines are printed. -/
def definitions (s : RuleSet) : List Definition :=
  s.nonterminals.map fun lhs => { lhs, alternatives := (s.rulesFor lhs).map Rule.rhs }

/-- Each printed line is closed by a line feed. -/
theorem toList_render (s : RuleSet) :
    s.render.toList = (s.definitions.map fun d => d.render.toList).flatMap (· ++ ['\n']) := by
  have line (lhs : Nonterminal) : (s.renderLine lhs ++ "\n").toList =
      (Definition.render ⟨lhs, (s.rulesFor lhs).map Rule.rhs⟩).toList ++ ['\n'] := by
    rw [renderLine, Definition.render, List.map_map, String.toList_append]
    rfl
  rw [render, String.toList_join, renderLines, definitions]
  simp only [List.map_map, List.flatMap_map]
  exact List.flatMap_congr fun lhs _ => line lhs

theorem Indexed.flatMap_rules_definitions (h : Indexed s) :
    s.definitions.flatMap Definition.rules = s.groupedRules := by
  rw [definitions, List.flatMap_map, groupedRules]
  apply List.flatMap_congr
  intro lhs _
  rw [Definition.rules, List.map_map]
  refine (List.map_congr_left fun rule member => ?_).trans (List.map_id _)
  rw [Function.comp_apply, ← h.lhs_of_mem_rulesFor member]
  rfl

theorem map_lhs_definitions (s : RuleSet) : s.definitions.map Definition.lhs = s.nonterminals := by
  rw [definitions, List.map_map]
  exact List.map_id _

/-- What is printed can be loaded. -/
structure Printable (s : RuleSet) : Prop where
  nonempty : s.definitions ≠ []
  writable : ∀ d ∈ s.definitions, d.IsWritable
  closed : GrammarFile.Closed s.definitions

end RuleSet

namespace GrammarFile

variable {definitions : List Definition} {path : String} {s : RuleSet}

/-! ## Loading what was printed -/

theorem defines_render (writable : ∀ d ∈ definitions, d.IsWritable) :
    Defines (definitions.map fun d => d.render.toList) definitions := by
  have spoken : ruleLines (definitions.map fun d => d.render.toList) =
      definitions.map fun d => d.render.toList := by
    refine List.filter_eq_self.2 (List.forall_mem_map.2 fun d member => ?_)
    rw [Definition.isSilent_render (writable d member), Bool.not_false]
  rw [Defines, spoken, List.map_map]
  exact List.map_congr_left fun d member => Definition.ofText_render (writable d member)

theorem lines_render (writable : ∀ d ∈ s.definitions, d.IsWritable) :
    Text.lines s.render.toList = s.definitions.map fun d => d.render.toList := by
  rw [RuleSet.toList_render, Text.lines]
  refine Text.splitLines_closed (List.forall_mem_map.2 fun d member => ?_)
    (List.forall_mem_map.2 fun d member final => ?_)
  · exact (Definition.onlySpaces_render (writable d member)).not_mem (by decide) (by decide)
  · have inside := List.mem_of_getLast? final
    exact (Definition.onlySpaces_render (writable d member)).not_mem (by decide) (by decide) inside

theorem load_render_of_printable (h : s.Printable) (indexed : s.Indexed) :
    load path s.render =
      .ok { start := s.nonterminals.head?.getD ⟨""⟩, rules := s.grouped } := by
  refine load_eq_ok_iff.2 ⟨s.definitions, ?_, h.nonempty, h.closed, ?_⟩
  · rw [lines_render h.writable]
    exact defines_render h.writable
  · rw [Grammar.ofDefinitions, indexed.flatMap_rules_definitions, ← List.head?_map,
      RuleSet.map_lhs_definitions]
    rfl

/-! ## What was loaded can be printed -/

theorem isWritable_of_defines {lines : List (List Char)} (h : Defines lines definitions) :
    ∀ d ∈ definitions, d.IsWritable := by
  intro d member
  have isRead : Except.ok d ∈ (ruleLines lines).map Definition.ofText := by
    rw [h]
    exact List.mem_map_of_mem member
  obtain ⟨line, isLine, read⟩ := List.mem_map.1 isRead
  have spoken : isSilent line = false := by simpa using (List.mem_filter.1 isLine).2
  exact Definition.isWritable_of_ofText spoken read

end GrammarFile

namespace Grammar

variable {definitions : List Definition}

theorem indexed_ofDefinitions (definitions : List Definition) :
    (ofDefinitions definitions).rules.Indexed := RuleSet.indexed_ofList _

theorem beq_self {g : Grammar} (indexed : g.rules.Indexed) : (g == g) = true := by
  have rules := indexed.beq_of_toList_eq indexed rfl
  change (g.start == g.start && g.rules == g.rules) = true
  rw [rules, beq_self_eq_true, Bool.and_self]

theorem mem_ofDefinitions {rule : Rule} :
    rule ∈ (ofDefinitions definitions).rules.toList ↔
      ∃ d ∈ definitions, d.lhs = rule.lhs ∧ rule.rhs ∈ d.alternatives := by
  rw [ofDefinitions, RuleSet.mem_toList_ofList, List.mem_flatMap]
  apply exists_congr
  intro d
  apply and_congr_right
  intro _
  rw [Definition.rules, List.mem_map]
  constructor
  · rintro ⟨rhs, member, rfl⟩
    exact ⟨rfl, member⟩
  · rintro ⟨same, member⟩
    exact ⟨rule.rhs, member, by rw [same]⟩

section Alternatives

variable (some_ : ∀ d ∈ definitions, d.alternatives ≠ [])

include some_

theorem mem_nonterminals_ofDefinitions {lhs : Nonterminal} :
    lhs ∈ (ofDefinitions definitions).rules.nonterminals ↔
      lhs ∈ definitions.map Definition.lhs := by
  simp only [RuleSet.mem_nonterminals, mem_ofDefinitions, List.mem_map]
  constructor
  · rintro ⟨rule, ⟨d, member, same, _⟩, rfl⟩
    exact ⟨d, member, same⟩
  · rintro ⟨d, member, rfl⟩
    obtain ⟨rhs, isAlternative⟩ := List.exists_mem_of_ne_nil _ (some_ d member)
    exact ⟨⟨d.lhs, rhs⟩, ⟨d, member, rfl, isAlternative⟩, rfl⟩

/-- The start symbol is the nonterminal that is printed first. -/
theorem start_ofDefinitions :
    (ofDefinitions definitions).start =
      (ofDefinitions definitions).rules.nonterminals.head?.getD ⟨""⟩ := by
  have opening : (definitions.flatMap Definition.rules).head?.map Rule.lhs =
      definitions.head?.map Definition.lhs := by
    cases definitions with
    | nil => rfl
    | cons d rest =>
        cases written : d.alternatives with
        | nil => exact absurd written (some_ d (by simp))
        | cons rhs others => simp [Definition.rules, written]
  rw [ofDefinitions, RuleSet.nonterminals, RuleSet.toList_ofList, head?_eraseDups, List.head?_map,
    head?_eraseDups, opening]

end Alternatives

theorem printable_ofDefinitions (nonempty : definitions ≠ [])
    (writable : ∀ d ∈ definitions, d.IsWritable) (closed : GrammarFile.Closed definitions) :
    (ofDefinitions definitions).rules.Printable := by
  have indexed := indexed_ofDefinitions definitions
  have known {lhs : Nonterminal} :
      lhs ∈ (ofDefinitions definitions).rules.nonterminals ↔
        lhs ∈ definitions.map Definition.lhs :=
    mem_nonterminals_ofDefinitions fun d member => (writable d member).nonempty
  -- An alternative that is printed was an alternative of the same nonterminal.
  have source {lhs : Nonterminal} {rhs : Rhs}
      (printed : rhs ∈ ((ofDefinitions definitions).rules.rulesFor lhs).map Rule.rhs) :
      ∃ d ∈ definitions, d.lhs = lhs ∧ rhs ∈ d.alternatives := by
    obtain ⟨rule, member, rfl⟩ := List.mem_map.1 printed
    obtain ⟨isRule, rfl⟩ := indexed.mem_rulesFor.1 member
    exact mem_ofDefinitions.1 isRule
  refine ⟨?_, ?_, ?_⟩
  · obtain ⟨d, member⟩ := List.exists_mem_of_ne_nil _ nonempty
    intro none
    have first := known.2 (List.mem_map_of_mem member)
    rw [← RuleSet.map_lhs_definitions, none] at first
    simp at first
  · intro printed isPrinted
    obtain ⟨lhs, isNonterminal, rfl⟩ := List.mem_map.1 isPrinted
    obtain ⟨d, member, rfl⟩ := List.mem_map.1 (known.1 isNonterminal)
    refine ⟨(writable d member).isName, (writable d member).opens, ?_, ?_⟩
    · simpa using indexed.rulesFor_ne_nil_iff.2 isNonterminal
    · intro rhs isAlternative
      obtain ⟨origin, isOrigin, _, written⟩ := source isAlternative
      exact (writable origin isOrigin).each rhs written
  · intro printed isPrinted name isUsed
    obtain ⟨lhs, isNonterminal, rfl⟩ := List.mem_map.1 isPrinted
    obtain ⟨rhs, isAlternative, inside⟩ := List.mem_flatMap.1 isUsed
    obtain ⟨origin, isOrigin, _, written⟩ := source isAlternative
    rw [RuleSet.map_lhs_definitions, known]
    exact closed origin isOrigin name (List.mem_flatMap.2 ⟨rhs, written, inside⟩)

end Grammar

/-! ## The round trip -/

namespace GrammarFile

/-- **A printed grammar loads again, with its rules grouped by their left-hand sides.**
Nothing that is read through a nonterminal changes, and the charts only change the order
inside their cells.  Printing what was loaded gives the same text, so loading that gives
an equal grammar. -/
theorem load_render {path text : String} {g : Grammar} (loaded : load path text = .ok g) :
    ∃ h : Grammar, (∀ source, load source g.rules.render = .ok h) ∧
      h.start = g.start ∧
      h.rules.nonterminals = g.rules.nonterminals ∧
      (∀ lhs, h.rules.rulesFor lhs = g.rules.rulesFor lhs) ∧
      h.rules.toList.Perm g.rules.toList ∧
      h.rules.toList = g.rules.nonterminals.flatMap g.rules.rulesFor ∧
      h.rules.render = g.rules.render ∧
      (∀ source, ∃ again, load source h.rules.render = .ok again ∧ (again == h) = true ∧
        again.rules.toList = h.rules.toList) ∧
      ∀ tokens, tokens ≠ [] →
        ∃ c d, Chart.parse g.rules tokens = .ok c ∧ Chart.parse h.rules tokens = .ok d ∧
          c.SameTrees d := by
  obtain ⟨definitions, defines, nonempty, closed, rfl⟩ := load_eq_ok_iff.1 loaded
  have writable := isWritable_of_defines defines
  have printable := Grammar.printable_ofDefinitions nonempty writable closed
  have indexed := Grammar.indexed_ofDefinitions definitions
  have start := Grammar.start_ofDefinitions fun d member => (writable d member).nonempty
  generalize Grammar.ofDefinitions definitions = g at printable indexed start
  have reloads (source : String) : load source g.rules.render = .ok ⟨g.start, g.rules.grouped⟩ := by
    rw [start]
    exact load_render_of_printable printable indexed
  have grouped := RuleSet.indexed_grouped g.rules
  refine ⟨_, reloads, rfl, indexed.nonterminals_grouped, indexed.rulesFor_grouped,
    indexed.perm_grouped, indexed.toList_grouped, indexed.render_grouped, ?_, ?_⟩
  · intro source
    refine ⟨⟨g.start, g.rules.grouped⟩, ?_, Grammar.beq_self grouped, rfl⟩
    rw [indexed.render_grouped, reloads]
  · intro tokens words
    exact ⟨_, _, Chart.parse_of_ne_nil words, Chart.parse_of_ne_nil words,
      Chart.sameTrees_of_perm indexed grouped indexed.perm_grouped.symm tokens⟩

/-- The lines of one nonterminal stand apart, and a word holds the mark of comments. -/
def interleavedText : String := "S = A A\nA = \"a\"\nS = \"s;\"\n"

def interleaved : List Definition :=
  [⟨⟨"S"⟩, [.binary ⟨"A"⟩ ⟨"A"⟩]⟩, ⟨⟨"A"⟩, [.lexical "a"]⟩, ⟨⟨"S"⟩, [.lexical "s;"]⟩]

/-- The third rule comes second when it is loaded again. -/
theorem load_render_interleaved :
    load "first" interleavedText = .ok (Grammar.ofDefinitions interleaved) ∧
      ∃ h : Grammar,
        load "second" (Grammar.ofDefinitions interleaved).rules.render = .ok h ∧
        (Grammar.ofDefinitions interleaved).rules.toList =
          [⟨⟨"S"⟩, .binary ⟨"A"⟩ ⟨"A"⟩⟩, ⟨⟨"A"⟩, .lexical "a"⟩, ⟨⟨"S"⟩, .lexical "s;"⟩] ∧
        h.rules.toList =
          [⟨⟨"S"⟩, .binary ⟨"A"⟩ ⟨"A"⟩⟩, ⟨⟨"S"⟩, .lexical "s;"⟩, ⟨⟨"A"⟩, .lexical "a"⟩] := by
  have loaded : load "first" interleavedText = .ok (Grammar.ofDefinitions interleaved) := by
    refine load_eq_ok_iff.2 ⟨interleaved, ?_, by decide, by decide, rfl⟩
    have lines : Text.lines interleavedText.toList =
        interleaved.map fun d => d.render.toList := by decide
    rw [lines]
    exact defines_render (by decide)
  obtain ⟨h, reloads, _, _, _, _, order, _⟩ := load_render loaded
  have registered : (Grammar.ofDefinitions interleaved).rules.toList =
      [⟨⟨"S"⟩, .binary ⟨"A"⟩ ⟨"A"⟩⟩, ⟨⟨"A"⟩, .lexical "a"⟩, ⟨⟨"S"⟩, .lexical "s;"⟩] := by
    rw [Grammar.ofDefinitions, RuleSet.toList_ofList]
    decide
  refine ⟨loaded, h, reloads "second", registered, ?_⟩
  rw [order, RuleSet.nonterminals,
    funext (Grammar.indexed_ofDefinitions interleaved).rulesFor_eq, registered]
  decide

end GrammarFile

end PhraseChart
