/-
# PhraseChart.Proofs.Program.Written -- what a run can write

A run that generates writes one line for each sentence that was asked for (`runWith_generate`).
Loading checks that every name in an alternative is the left-hand side of a line, and a start
symbol that is asked for must be defined.  So such a run begins at a nonterminal with rules in a
closed rule set, where drawing fails by the depth only, unless its source of random words gives out.

Whatever a run is asked for, its lines are of a few kinds: output, the five notes of a trace, and
complaints about the command line, the grammar file, a sentence, standard input or a sentence that
could not be drawn, though never for want of a definition (`isWritten_of_mem_run`).

Each kind opens in its own way, and the notes open with the name of the part that traces.  So a note
can be told by its text from all else that goes to standard error (`Event.IsWritten.isTrace_eq`),
and the message that a nonterminal has no definition is not among them (`Event.IsWritten.error?_ne`).
-/
import PhraseChart.Proofs.Program.Generating
import PhraseChart.Proofs.Program.Stepwise
import PhraseChart.Proofs.Sampling.Failing

namespace PhraseChart.Program

set_option autoImplicit false

open GrammarFile (Entry PhysicalLine)

variable {σ : Type} {source : Sampling.Source σ} {state between : σ} {tracing : Bool}
  {options : Options} {surroundings : Surroundings σ} {rules : RuleSet} {start : Nonterminal}
  {maxDepth amount : Nat} {entries : List Entry} {event : Event}

/-! ## Generating -/

/-- A sentence, or the complaint of a failure that neither the grammar nor the sampler is to blame
for. -/
def Event.IsDrawn (source : Sampling.Source σ) (maxDepth : Nat) (state : σ) (event : Event) : Prop :=
  (∃ words, event = .output (" ".intercalate words)) ∨
    ∃ failure, Sampling.Excused source maxDepth state failure ∧ event = .complaint failure.message

theorem Event.IsDrawn.of_ahead (drawn : event.IsDrawn source maxDepth between)
    (reached : source.Reaches state between) : event.IsDrawn source maxDepth state :=
  drawn.imp_right fun ⟨failure, excused, isComplaint⟩ =>
    ⟨failure, excused.of_ahead reached, isComplaint⟩

theorem isDrawn_of_mem_generate (indexed : rules.Indexed) (closed : rules.Closed)
    (defined : rules.defines start = true)
    (member : event ∈ generate rules maxDepth start source amount state) :
    event.IsDrawn source maxDepth state := by
  induction amount generalizing state with
  | zero => cases member
  | succ amount ih =>
      have safe : Sampling.Safe source maxDepth (Sampling.sentence source rules maxDepth start)
          fun _ => True := Sampling.safe_sentence indexed closed defined
      have step := safe state
      rw [generate] at member
      cases drawn : Sampling.sentence source rules maxDepth start state with
      | ok words after =>
          rw [drawn] at member step
          rcases List.mem_cons.1 member with rfl | later
          · exact .inl ⟨words, rfl⟩
          · exact (ih later).of_ahead step.1
      | error failure after =>
          rw [drawn] at member step
          rcases List.mem_cons.1 member with rfl | later
          · exact .inr ⟨failure, step.2, rfl⟩
          · exact (ih later).of_ahead step.1

theorem length_generate (rules : RuleSet) (maxDepth : Nat) (start : Nonterminal)
    (source : Sampling.Source σ) (amount : Nat) (state : σ) :
    (generate rules maxDepth start source amount state).length = amount := by
  induction amount generalizing state with
  | zero => rfl
  | succ amount ih =>
      rw [generate]
      cases Sampling.sentence source rules maxDepth start state with
      | ok words after => rw [List.length_cons, ih]
      | error failure after => rw [List.length_cons, ih]

section Loaded

variable
    (loaded : GrammarFile.fileEntries options.file (surroundings.read options.file) = .ok entries)
    (started : startSymbol options (GrammarFile.grammar entries) = .ok start)

include loaded started

/-- A run starts from a nonterminal that the grammar defines. -/
theorem defines_of_startSymbol :
    (GrammarFile.grammar entries).rules.defines start = true := by
  obtain ⟨bytes, -, read⟩ := GrammarFile.fileEntries_eq_ok_iff.1 loaded
  rw [startSymbol] at started
  cases asked : options.start with
  | none =>
      rw [asked] at started
      exact Except.ok.inj started ▸ GrammarFile.defines_start_of_entries read
  | some name =>
      simp only [asked] at started
      split at started
      · rename_i defined
        exact Except.ok.inj started ▸ defined
      · cases started

/-- A loaded grammar is closed, and a run starts from what it defines. -/
theorem isDrawn_of_loaded
    (member : event ∈ generate (GrammarFile.grammar entries).rules maxDepth start source amount
      state) : event.IsDrawn source maxDepth state := by
  obtain ⟨bytes, -, read⟩ := GrammarFile.fileEntries_eq_ok_iff.1 loaded
  exact isDrawn_of_mem_generate (RuleSet.indexed_ofList _) (GrammarFile.closed_of_entries read)
    (defines_of_startSymbol loaded started) member

/-- A run that generates writes one line for each sentence that was asked for. -/
theorem runWith_generate (silent : options.printGrammar = false)
    (asked : options.generate = some amount) :
    ∃ events, runWith tracing options surroundings =
        { status := .success, events := fileTrace tracing options.file entries ++ events } ∧
      events.length = amount ∧
      ∀ event ∈ events,
        event.IsDrawn surroundings.source options.maxDepth surroundings.state := by
  refine ⟨generate (GrammarFile.grammar entries).rules options.maxDepth start surroundings.source
    amount surroundings.state, ?_, length_generate _ _ _ _ _ _, fun event =>
      isDrawn_of_loaded loaded started⟩
  rw [runWith_eq loaded started, serve_generate silent asked]
  rfl

end Loaded

/-! ## The kinds of lines -/

/-- The five kinds of trace lines. -/
inductive Trace.IsNote : String → Prop
  | repeated (path : String) (number : Nat) : IsNote (repeatLine path number)
  | loaded (path : String) (grammar : Grammar) : IsNote (loadedLine path grammar)
  | unknown (word : Word) (position : Nat) : IsNote (unknownLine word position)
  | split (span : Span) (split count : Nat) : IsNote (splitLine span split count)
  | totals (c : Chart) : IsNote (totalsLine c)

/-- Lines of output, notes, and what there is to complain of. -/
inductive Event.IsWritten : Event → Prop
  | output (line : String) : IsWritten (.output line)
  | note {line : String} : Trace.IsNote line → IsWritten (.trace line)
  | usage (text : String) : IsWritten (.complaint ("error: " ++ text))
  | fault (fault : LocatedFault) : IsWritten (.complaint fault.render)
  | sentence (error : ParseError) : IsWritten (.complaint error.message)
  | input (error : ReadError) : IsWritten (.complaint ("Could not read stdin: " ++ error.text))
  | failure {failure : Sampling.Failure} : (∀ symbol, failure ≠ .undefinedNonterminal symbol) →
      IsWritten (.complaint failure.message)

theorem isNote_of_mem_loading {path line : String}
    (member : line ∈ Trace.loading path entries) : Trace.IsNote line := by
  rcases List.mem_append.1 member with again | last
  · obtain ⟨number, -, rfl⟩ := List.mem_map.1 again
    exact .repeated path number
  · rw [List.mem_singleton.1 last]
    exact .loaded path (GrammarFile.grammar entries)

theorem isNote_of_mem_parsing {line : String} {c : Chart} (member : line ∈ Trace.parsing c) :
    Trace.IsNote line := by
  rcases List.mem_append.1 member with before | last
  · rcases List.mem_append.1 before with unknown | split
    · obtain ⟨⟨position, word⟩, -, rfl⟩ := List.mem_map.1 unknown
      exact .unknown word position
    · obtain ⟨span, -, inside⟩ := List.mem_flatMap.1 split
      obtain ⟨place, -, shown⟩ := List.mem_filterMap.1 inside
      dsimp only at shown
      split at shown
      · cases shown
      · rw [← Option.some.inj shown]
        exact .split span place _
  · rw [List.mem_singleton.1 last]
    exact .totals c

theorem isWritten_of_mem_notes {lines : List String} (each : ∀ line ∈ lines, Trace.IsNote line)
    (member : event ∈ notes tracing lines) : event.IsWritten := by
  unfold notes at member
  split at member
  · obtain ⟨line, isLine, rfl⟩ := List.mem_map.1 member
    exact .note (each line isLine)
  · cases member

theorem isWritten_of_mem_outputs {lines : List String}
    (member : event ∈ lines.map Event.output) : event.IsWritten := by
  obtain ⟨line, -, rfl⟩ := List.mem_map.1 member
  exact .output line

theorem isWritten_of_mem_parseSentence {sentence : List Char}
    (member : event ∈ parseSentence tracing options rules start sentence) : event.IsWritten := by
  unfold parseSentence at member
  cases parsed : Chart.parse rules (Text.words sentence) with
  | error error =>
      rw [parsed] at member
      rw [List.mem_singleton.1 member]
      exact .sentence error
  | ok chart =>
      rw [parsed] at member
      rcases List.mem_append.1 member with traced | written
      · exact isWritten_of_mem_notes (fun _ => isNote_of_mem_parsing) traced
      · exact isWritten_of_mem_outputs written

theorem isWritten_of_mem_parseInput {lines : List PhysicalLine}
    (member : event ∈ (parseInput tracing options rules start lines).events) :
    event.IsWritten := by
  induction lines with
  | nil => cases member
  | cons line rest ih =>
      cases line with
      | error error =>
          rw [List.mem_singleton.1 member]
          exact .input error
      | ok line =>
          rw [parseInput] at member
          split at member
          · exact ih member
          · rcases List.mem_append.1 member with here | later
            · exact isWritten_of_mem_parseSentence here
            · exact ih later

theorem Event.IsDrawn.isWritten (drawn : event.IsDrawn source maxDepth state) :
    event.IsWritten := by
  rcases drawn with ⟨words, rfl⟩ | ⟨failure, rfl | ⟨rfl, -⟩, rfl⟩
  · exact .output _
  · exact .failure nofun
  · exact .failure nofun

theorem isWritten_of_mem_serve
    (loaded : GrammarFile.fileEntries options.file (surroundings.read options.file) = .ok entries)
    (started : startSymbol options (GrammarFile.grammar entries) = .ok start)
    (member : event ∈
      (serve tracing options surroundings (GrammarFile.grammar entries).rules start).events) :
    event.IsWritten := by
  unfold serve at member
  split at member
  · exact isWritten_of_mem_outputs member
  · cases asked : options.generate with
    | some amount =>
        rw [asked] at member
        exact (isDrawn_of_loaded loaded started member).isWritten
    | none =>
        rw [asked] at member
        dsimp only at member
        split at member
        · exact isWritten_of_mem_parseInput member
        · obtain ⟨sentence, -, inside⟩ := List.mem_flatMap.1 member
          exact isWritten_of_mem_parseSentence inside

theorem isWritten_of_mem_runWith (member : event ∈ (runWith tracing options surroundings).events) :
    event.IsWritten := by
  unfold runWith at member
  cases loaded : GrammarFile.fileEntries options.file (surroundings.read options.file) with
  | error faults =>
      rw [loaded] at member
      obtain ⟨fault, -, rfl⟩ := List.mem_map.1 member
      exact .fault fault
  | ok entries =>
      rw [loaded] at member
      rcases List.mem_append.1 member with traced | served
      · exact isWritten_of_mem_notes (fun _ => isNote_of_mem_loading) traced
      · cases started : startSymbol options (GrammarFile.grammar entries) with
        | error fault =>
            rw [started] at served
            rw [List.mem_singleton.1 served]
            exact .fault fault
        | ok start =>
            rw [started] at served
            exact isWritten_of_mem_serve loaded started served

/-- Every run writes lines of these kinds only. -/
theorem isWritten_of_mem_run {parse : ArgumentParser} {arguments : List String}
    (member : event ∈ (run parse tracing arguments surroundings).events) : event.IsWritten := by
  unfold run at member
  cases asked : parse arguments with
  | error text =>
      rw [asked] at member
      rw [List.mem_singleton.1 member]
      exact .usage text
  | ok request =>
      rw [asked] at member
      cases request with
      | inform lines => exact isWritten_of_mem_outputs member
      | run options => exact isWritten_of_mem_runWith member

/-! ## Telling lines by their texts -/

/-- The text opens with the name of a part that traces. -/
def Trace.opens (text : String) : Bool :=
  "bnf: ".toList.isPrefixOf text.toList || "chart: ".toList.isPrefixOf text.toList

section Opens

variable {text more : String} {c : Char}

theorem Trace.opens_append (h : Trace.opens text = true) : Trace.opens (text ++ more) = true := by
  simp only [opens, Bool.or_eq_true, List.isPrefixOf_iff_prefix, String.toList_append] at h ⊢
  exact h.imp (fun h => h.trans (List.prefix_append _ _)) fun h => h.trans (List.prefix_append _ _)

theorem Trace.IsNote.opens (note : Trace.IsNote text) : Trace.opens text = true := by
  cases note <;> repeat apply Trace.opens_append
  all_goals decide

theorem head?_toList_append (first : text.toList.head? = some c) :
    (text ++ more).toList.head? = some c := by
  rw [String.toList_append, List.head?_append, first]
  rfl

theorem Trace.opens_eq_false (first : text.toList.head? = some c) (other : c ≠ 'b' ∧ c ≠ 'c') :
    Trace.opens text = false := by
  obtain ⟨rest, spelled⟩ := List.head?_eq_some_iff.1 first
  simp [opens, spelled, List.isPrefixOf, other.1.symm, other.2.symm]

end Opens

/-- The first letter of a complaint: neither that of a note nor that of a missing definition. -/
theorem Event.IsWritten.exists_first {text : String}
    (written : (Event.complaint text).IsWritten) :
    ∃ c, text.toList.head? = some c ∧ (c ≠ 'b' ∧ c ≠ 'c') ∧ c ≠ 'N' := by
  cases written with
  | usage text => exact ⟨'e', head?_toList_append (by decide), by decide⟩
  | fault fault =>
      refine ⟨'\x1b', ?_, by decide⟩
      repeat apply head?_toList_append
      decide
  | sentence error =>
      cases error
      exact ⟨'C', by decide, by decide⟩
  | input error => exact ⟨'C', head?_toList_append (by decide), by decide⟩
  | @failure failure known =>
      cases failure with
      | undefinedNonterminal symbol => exact absurd rfl (known symbol)
      | depthExceeded maxDepth => exact ⟨'D', head?_toList_append (by decide), by decide⟩
      | noAcceptedWord => exact ⟨'T', by decide, by decide⟩

/-- **Of all that goes to standard error, the notes alone open like one.** -/
theorem Event.IsWritten.isTrace_eq (written : event.IsWritten) {text : String}
    (shown : event.error? = some text) : event.isTrace = Trace.opens text := by
  cases event with
  | output line => cases shown
  | complaint line =>
      cases shown
      obtain ⟨c, first, other, -⟩ := written.exists_first
      exact (Trace.opens_eq_false first other).symm
  | trace line =>
      cases shown
      cases written with
      | note isNote => exact isNote.opens.symm

/-- **No line on standard error says that a nonterminal has no definition**: what is written opens in
another way. -/
theorem Event.IsWritten.error?_ne (written : event.IsWritten) (symbol : Nonterminal) :
    event.error? ≠ some (Sampling.Failure.undefinedNonterminal symbol).message := by
  intro reported
  have first : (Sampling.Failure.undefinedNonterminal symbol).message.toList.head? = some 'N' :=
    head?_toList_append (head?_toList_append (by decide))
  cases event with
  | output line => cases reported
  | complaint line =>
      obtain ⟨c, opening, -, other⟩ := written.exists_first
      rw [Option.some.inj reported, first] at opening
      exact other (Option.some.inj opening).symm
  | trace line =>
      have isTrace := written.isTrace_eq reported
      rw [Trace.opens_eq_false first (by decide)] at isTrace
      cases isTrace

end PhraseChart.Program
