/-
# PhraseChart.Proofs.Program.Tracing -- tracing does not interfere

A run that traces differs from one that does not by its trace lines only.  `Report.withoutTrace`
deletes them, and what is left is the report of the other run, layer by layer up to the whole
program (`withoutTrace_run`).

What stands on standard error shows which lines those are, since nothing else there opens as they
do (`filterMap_error?_untraced`), and standard output has none of them.
-/
import PhraseChart.Proofs.Program.Sentences
import PhraseChart.Proofs.Program.Written
import PhraseChart.Proofs.Sampling.Source

namespace PhraseChart

set_option autoImplicit false

namespace Program

open GrammarFile (PhysicalLine)

variable {σ τ : Type} {tracing : Bool} {options : Options} {surroundings : Surroundings σ}
  {rules : RuleSet} {start : Nonterminal} {source : Sampling.Source τ} {state : τ}

/-! ## Deleting the trace -/

def untraced (events : List Event) : List Event := events.filter fun event => !event.isTrace

def Report.withoutTrace (report : Report) : Report :=
  { report with events := untraced report.events }

theorem untraced_append (events more : List Event) :
    untraced (events ++ more) = untraced events ++ untraced more := List.filter_append _ _

theorem untraced_flatMap {α : Type} (l : List α) (f : α → List Event) :
    untraced (l.flatMap f) = l.flatMap fun a => untraced (f a) := List.filter_flatMap

theorem Report.withoutTrace_after (events : List Event) (report : Report) :
    (report.after events).withoutTrace = report.withoutTrace.after (untraced events) := by
  rw [withoutTrace, after, untraced_append]
  rfl

theorem untraced_notes (lines : List String) : untraced (notes tracing lines) = [] := by
  cases tracing <;> simp [untraced, notes, Event.isTrace]

theorem untraced_outputs (lines : List String) :
    untraced (lines.map .output) = lines.map .output := by
  simp [untraced, Event.isTrace]

theorem untraced_parseSentence (sentence : List Char) :
    untraced (parseSentence true options rules start sentence) =
      parseSentence false options rules start sentence := by
  unfold parseSentence
  cases Chart.parse rules (Text.words sentence) with
  | error error => rfl
  | ok chart =>
      have traced : untraced (chartTrace true chart) = [] := untraced_notes _
      dsimp only
      rw [untraced_append, traced, untraced_outputs]
      rfl

theorem withoutTrace_parseInput (lines : List PhysicalLine) :
    (parseInput true options rules start lines).withoutTrace =
      parseInput false options rules start lines := by
  induction lines with
  | nil => rfl
  | cons line rest ih =>
      cases line with
      | error error => rfl
      | ok line =>
          rw [parseInput, parseInput]
          split
          · exact ih
          · rw [Report.withoutTrace_after, ih, untraced_parseSentence]

/-- The same surroundings, but for another source of random words. -/
def Surroundings.withSource (surroundings : Surroundings σ) (source : Sampling.Source τ)
    (state : τ) : Surroundings τ :=
  { surroundings with source, state }

/-- What a run does with a grammar depends on random words only if it generates. -/
theorem withoutTrace_serve (parses : options.generate = none) :
    (serve true options (surroundings.withSource source state) rules start).withoutTrace =
      serve false options surroundings rules start := by
  unfold serve
  split
  · exact congrArg (Report.mk .success) (untraced_outputs _)
  · simp only [parses]
    split
    · exact withoutTrace_parseInput _
    · refine congrArg (Report.mk .success) ?_
      simp only [untraced_flatMap, untraced_parseSentence]

theorem withoutTrace_runWith (parses : options.generate = none) :
    (runWith true options (surroundings.withSource source state)).withoutTrace =
      runWith false options surroundings := by
  have complaints (faults : List LocatedFault) :
      untraced (faults.map fun fault => .complaint fault.render) =
        faults.map fun fault => .complaint fault.render := by
    simp [untraced, Event.isTrace]
  unfold runWith
  dsimp only [Surroundings.withSource]
  cases GrammarFile.fileEntries options.file (surroundings.read options.file) with
  | error faults => exact congrArg (Report.mk .failure) (complaints faults)
  | ok entries =>
      have traced : untraced (fileTrace true options.file entries) = [] := untraced_notes _
      dsimp only
      rw [Report.withoutTrace_after, traced]
      cases startSymbol options (GrammarFile.grammar entries) with
      | error fault => rfl
      | ok start => exact congrArg _ (withoutTrace_serve parses)

/-- **A run that traces is the other run with the trace in between.** -/
theorem withoutTrace_run {parse : ArgumentParser} {arguments : List String}
    (parses : ∀ options, parse arguments = .ok (.run options) → options.generate = none) :
    (run parse true arguments (surroundings.withSource source state)).withoutTrace =
      run parse false arguments surroundings := by
  unfold run
  cases asked : parse arguments with
  | error text => rfl
  | ok request =>
      cases request with
      | inform lines => exact congrArg (Report.mk .success) (untraced_outputs _)
      | run options => exact withoutTrace_runWith (parses options asked)

/-! ## The two channels -/

theorem filterMap_output?_untraced (events : List Event) :
    (untraced events).filterMap Event.output? = events.filterMap Event.output? := by
  induction events with
  | nil => rfl
  | cons event rest ih =>
      cases event with
      | output line => exact congrArg (line :: ·) ih
      | complaint line => exact ih
      | trace line => exact ih

theorem filterMap_error?_untraced {events : List Event}
    (written : ∀ event ∈ events, event.IsWritten) :
    (untraced events).filterMap Event.error? =
      (events.filterMap Event.error?).filter fun text => !Trace.opens text := by
  induction events with
  | nil => rfl
  | cons event rest ih =>
      obtain ⟨here, later⟩ := List.forall_mem_cons.1 written
      have kept : (untraced rest).filterMap Event.error? = _ := ih later
      cases event with
      | output line => exact kept
      | complaint line =>
          have other : Trace.opens line = false := (here.isTrace_eq rfl).symm
          change line :: (untraced rest).filterMap Event.error? = List.filter _ (line :: _)
          rw [List.filter_cons_of_pos (by simp [other]), kept]
      | trace line =>
          have same : Trace.opens line = true := (here.isTrace_eq rfl).symm
          change (untraced rest).filterMap Event.error? = List.filter _ (line :: _)
          rw [List.filter_cons_of_neg (by simp [same]), kept]

end Program

open Program in
/-- **Tracing does not interfere.**  A run that parses or prints writes the same output and ends in
the same way whether it traces or not, and whatever random words there are.  Without the trace
lines, which are of five kinds and can be told by their texts, its standard error is that of the run
that does not trace, in the same order.  Both runs are those that write each line where its work is
done. -/
theorem tracing_does_not_interfere {σ τ : Type} (parse : ArgumentParser) (arguments : List String)
    (surroundings : Surroundings σ) (source : Sampling.Source τ) (state : τ)
    (parses : ∀ options, parse arguments = .ok (.run options) → options.generate = none) :
    let plain := run parse false arguments surroundings
    let traced := run parse true arguments (surroundings.withSource source state)
    traced.status = plain.status ∧ traced.stdout = plain.stdout ∧
      traced.events.filter (fun event => !event.isTrace) = plain.events ∧
      Report.textOf ((traced.events.filterMap Event.error?).filter fun text => !Trace.opens text) =
        plain.stderr ∧
      (∀ line, .trace line ∈ traced.events → Trace.IsNote line) ∧
      (Stepwise.run parse false arguments surroundings).report = plain ∧
      (Stepwise.run parse true arguments (surroundings.withSource source state)).report =
        traced := by
  intro plain traced
  have same : traced.withoutTrace = plain := withoutTrace_run parses
  have written : ∀ event ∈ traced.events, event.IsWritten := fun event => isWritten_of_mem_run
  refine ⟨by rw [← same]; rfl, ?_, by rw [← same]; rfl, ?_, ?_, 
    Stepwise.report_run _ _ _ _, Stepwise.report_run _ _ _ _⟩
  · rw [← same, Report.stdout, Report.stdout, Report.withoutTrace, filterMap_output?_untraced]
  · rw [← same, Report.stderr, Report.withoutTrace, filterMap_error?_untraced written]
  · intro line member
    cases written _ member with
    | note isNote => exact isNote

open Program in
/-- The run on two sentences, with the last line of the trace of its grammar. -/
theorem tracing_does_not_interfere_hyphen :
    (∀ options, Request.ofArguments hyphenArguments = .ok (.run options) →
      options.generate = none) ∧
    let plain := run Request.ofArguments false hyphenArguments coupleSurroundings
    let zeros := coupleSurroundings.withSource Sampling.Source.zeros ()
    let traced := run Request.ofArguments true hyphenArguments zeros
    traced.status = plain.status ∧ traced.stdout = plain.stdout ∧
      Report.textOf ((traced.events.filterMap Event.error?).filter fun text => !Trace.opens text) =
        plain.stderr ∧
      (Stepwise.run Request.ofArguments true hyphenArguments zeros).report = traced ∧
      .trace (Trace.loadedLine "couple" (Grammar.ofDefinitions couple)) ∈ traced.events := by
  have asked : Request.ofArguments hyphenArguments =
      .ok (.run (coupleOptions.parsing ["a a", "-"])) := rfl
  have parses : ∀ options, Request.ofArguments hyphenArguments = .ok (.run options) →
      options.generate = none := by
    intro options isRun
    rw [asked] at isRun
    cases isRun
    rfl
  obtain ⟨status, stdout, -, stderr, -, -, stepwise⟩ := tracing_does_not_interfere
    Request.ofArguments hyphenArguments coupleSurroundings Sampling.Source.zeros () parses
  obtain ⟨entries, loaded, isGrammar, started⟩ := exists_couple_entries
  refine ⟨parses, status, stdout, stderr, stepwise, ?_⟩
  have report := @run_sentences _ Request.ofArguments true coupleOptions
    (coupleSurroundings.withSource Sampling.Source.zeros ()) ⟨"S"⟩ ["a a", "-"] entries loaded
    started hyphenArguments (by simp) asked
  have noted : Event.trace (Trace.loadedLine "couple" (GrammarFile.grammar entries)) ∈
      fileTrace true "couple" entries :=
    List.mem_map_of_mem (List.mem_append_right _ List.mem_cons_self)
  rw [isGrammar] at noted
  rw [report]
  exact List.mem_append_left _ noted

end PhraseChart
