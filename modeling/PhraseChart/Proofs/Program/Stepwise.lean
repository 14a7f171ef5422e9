/-
# PhraseChart.Proofs.Program.Stepwise -- what a run writes on the way

A run that writes its trace on the way ends with the same result as one that reads it off what is
finished, and has written the same lines in the same order (`report_run`).

For the grammar this is an induction over the rules, since whether a rule is new depends on those
before it.  For the chart it is one over the spans: with the shorter cells done, filling the
next cell leaves the chart that `Chart.fill` leaves and writes the notes on its splits
(`fillPhrase_eq`), and inside the cell every split adds the branches over its parts and says how
many they are (`fillSplit_adds`).  Either way a fold that keeps an invariant writes for each
step what the step writes (`Steps.foldlM_induction`).
-/
import PhraseChart.Proofs.Program.Notes

namespace PhraseChart.Program

set_option autoImplicit false

open GrammarFile (Entry PhysicalLine)
open Chart (ofTokens spans splits)

/-! ## Steps in a row -/

namespace Steps

variable {σ α : Type}

/-- A fold keeps what each step keeps, and writes what the steps write. -/
theorem foldlM_induction {f : σ → α → Steps σ} {written : α → List Event}
    {P : List α → σ → Prop} {all : List α} {s : σ} (start : P [] s)
    (step : ∀ done a rest s, all = done ++ a :: rest → P done s →
      P (done ++ [a]) (f s a).result ∧ (f s a).events = written a) :
    P all (all.foldlM f s).result ∧ (all.foldlM f s).events = all.flatMap written := by
  have run (pending done : List α) (s : σ) (order : all = done ++ pending) (h : P done s) :
      P all (pending.foldlM f s).result ∧
        (pending.foldlM f s).events = pending.flatMap written := by
    induction pending generalizing done s with
    | nil =>
        rw [List.append_nil] at order
        exact ⟨order ▸ h, rfl⟩
    | cons a rest ih =>
        obtain ⟨here, wrote⟩ := step done a rest s order h
        obtain ⟨kept, later⟩ := ih (done ++ [a]) _ (by rw [order, List.append_assoc]; rfl) here
        rw [List.foldlM_cons, result_bind, events_bind, wrote, later, List.flatMap_cons]
        exact ⟨kept, rfl⟩
  exact run all [] s rfl start

theorem events_forM (f : α → Steps PUnit) (l : List α) :
    (l.forM f).events = l.flatMap fun a => (f a).events := by
  induction l with
  | nil => rfl
  | cons a l ih =>
      change (f a >>= fun _ => l.forM f).events = _
      rw [events_bind, ih, List.flatMap_cons]

/-- What is written first stands first in the report. -/
theorem report_bind {steps : Steps α} {next : α → Steps Status} :
    (steps >>= next).report = (next steps.result).report.after steps.events := rfl

theorem report_pure (status : Status) :
    (pure status : Steps Status).report = { status, events := [] } := rfl

@[simp]
theorem events_writeAll (events : List Event) : (writeAll events).events = events := by
  rw [writeAll, events_forM]
  simp

theorem report_writeAll (events : List Event) (status : Status) :
    (do writeAll events; return status : Steps Status).report = { status, events } := by
  rw [report_bind, report_pure, events_writeAll, Report.after, List.append_nil]

end Steps

/-! ## Notes -/

/-- Notes are written by a run that traces. -/
def notes (tracing : Bool) (lines : List String) : List Event :=
  if tracing then lines.map .trace else []

theorem notes_append (tracing : Bool) (lines more : List String) :
    notes tracing (lines ++ more) = notes tracing lines ++ notes tracing more := by
  cases tracing <;> simp [notes]

theorem notes_flatMap {α : Type} (tracing : Bool) (l : List α) (f : α → List String) :
    notes tracing (l.flatMap f) = l.flatMap fun a => notes tracing (f a) := by
  cases tracing <;> simp [notes, List.map_flatMap]

namespace Stepwise

variable {tracing : Bool} {rules : RuleSet} {tokens : List Word} {c : Chart} {span : Span}

/-! ## Loading -/

theorem result_register (path : String) (s : RuleSet) (number : Nat) (rule : Rule) :
    (register tracing path s (number, rule)).result = s.insert rule := rfl

theorem events_register (path : String) (s : RuleSet) (number : Nat) (rule : Rule) :
    (register tracing path s (number, rule)).events =
      notes tracing (if s.contains rule then [Trace.repeatLine path number] else []) := by
  simp only [register, Steps.events_bind, Steps.events_noteIf, Steps.events_pure, List.append_nil,
    RuleSet.fst_insertIfNew, Bool.not_not, notes]
  cases s.contains rule <;> cases tracing <;> rfl

/-- Rules are registered as they are inserted, and the lines of the repeats are written. -/
theorem foldlM_register (path : String) (pending : List (Nat × Rule)) (s : RuleSet) :
    (pending.foldlM (register tracing path) s).result = s.insertMany (pending.map Prod.snd) ∧
      (pending.foldlM (register tracing path) s).events =
        notes tracing ((GrammarFile.repeatsFrom s pending).map (Trace.repeatLine path)) := by
  induction pending generalizing s with
  | nil => cases tracing <;> exact ⟨rfl, rfl⟩
  | cons first rest ih =>
      obtain ⟨number, rule⟩ := first
      obtain ⟨later, wrote⟩ := ih (s.insert rule)
      rw [List.foldlM_cons, Steps.result_bind, Steps.events_bind, result_register, later, wrote,
        events_register, ← notes_append, GrammarFile.repeatsFrom]
      refine ⟨rfl, congrArg _ ?_⟩
      by_cases known : s.contains rule = true
      · rw [if_pos known, if_pos known, RuleSet.insert_of_contains known]
        rfl
      · rw [if_neg known, if_neg known]
        rfl

theorem result_grammar (path : String) (entries : List Entry) :
    (grammar tracing path entries).result = GrammarFile.grammar entries := by
  obtain ⟨registered, -⟩ := @foldlM_register tracing path (GrammarFile.writtenRules entries) ∅
  simp only [grammar, Steps.result_bind, Steps.result_pure, registered]
  rfl

theorem events_grammar (path : String) (entries : List Entry) :
    (grammar tracing path entries).events = fileTrace tracing path entries := by
  obtain ⟨registered, wrote⟩ := @foldlM_register tracing path (GrammarFile.writtenRules entries) ∅
  simp only [grammar, Steps.events_bind, Steps.events_noteIf, Steps.events_pure, List.append_nil,
    registered, wrote]
  cases tracing with
  | false => rfl
  | true =>
      change _ = notes true (_ ++ [Trace.loadedLine path (GrammarFile.grammar entries)])
      rw [notes_append]
      rfl

/-! ## One cell -/

theorem events_fillWord {position : Nat} (same : c.tokens = tokens) :
    (fillWord tracing rules c position).events =
      notes tracing (wordNotes rules tokens position) := by
  subst same
  unfold fillWord wordNotes
  cases c.tokens[position]? with
  | none => cases tracing <;> rfl
  | some word =>
      simp only [Steps.events_bind, Steps.events_noteIf, Steps.events_pure, List.append_nil, notes]
      cases (rules.heads (.lexical word)).isEmpty <;> cases tracing <;> rfl

theorem result_fillWord {position : Nat} (inside : position < c.tokens.length) :
    (fillWord tracing rules c position).result = Chart.fill rules c ⟨position, position⟩ := by
  have found : c.tokens[position]? = some c.tokens[position] := List.getElem?_eq_getElem inside
  rw [Chart.fill_eq, Chart.spanNodes, if_pos rfl, Chart.wordNodes, fillWord, found]
  rfl

section Split

variable {split : Nat} {derived composed : List NodeId} {forest grown : Forest}

theorem fillSplit_of_empty
    (empty : ((c.ids span.first split).isEmpty || (c.ids (split + 1) span.last).isEmpty) = true) :
    fillSplit tracing rules c.cells span (derived, forest) split = pure (derived, forest) :=
  if_pos empty

theorem fillSplit_of_compose
    (nonempty : ¬ ((c.ids span.first split).isEmpty || (c.ids (split + 1) span.last).isEmpty) = true)
    (isComposed : forest.compose rules (c.ids span.first split) (c.ids (split + 1) span.last) =
      (some composed, grown)) :
    (fillSplit tracing rules c.cells span (derived, forest) split).result =
        (derived ++ composed, grown) ∧
      (fillSplit tracing rules c.cells span (derived, forest) split).events =
        notes tracing
          (if composed.length = 0 then [] else [Trace.splitLine span split composed.length]) := by
  simp only [Chart.ids] at nonempty isComposed
  simp only [fillSplit, if_neg nonempty, isComposed]
  exact ⟨rfl, by cases composed <;> cases tracing <;> rfl⟩

/-- A split adds the branches over its parts, and the note says how many they are. -/
theorem fillSplit_adds {done : List Span} (filled : c.Filled rules tokens done)
    (left : ⟨span.first, split⟩ ∈ done) (right : ⟨split + 1, span.last⟩ ∈ done)
    {new : List Node} (added : c.forest.Adds new (derived, forest)) :
    c.forest.Adds
        (new ++ branchesAmong rules c.forest (c.ids span.first split) (c.ids (split + 1) span.last))
        (fillSplit tracing rules c.cells span (derived, forest) split).result ∧
      (fillSplit tracing rules c.cells span (derived, forest) split).events =
        notes tracing (splitNotes rules tokens span split) := by
  have total := length_branchesAmong filled left right
  rw [splitNotes, ← total]
  by_cases empty :
      ((c.ids span.first split).isEmpty || (c.ids (split + 1) span.last).isEmpty) = true
  · have bare : branchesAmong rules c.forest (c.ids span.first split)
        (c.ids (split + 1) span.last) = [] := by
      rw [Bool.or_eq_true, List.isEmpty_iff, List.isEmpty_iff] at empty
      rcases empty with none | none <;> simp [branchesAmong, none]
    rw [fillSplit_of_empty empty, bare, List.append_nil]
    exact ⟨added, by cases tracing <;> rfl⟩
  · obtain ⟨composed, grown, isComposed, more⟩ := @Forest.exists_compose_eq rules _ _
      added.isStartOf _ _ (filled.known span.first split) (filled.known (split + 1) span.last)
    obtain ⟨result, wrote⟩ := @fillSplit_of_compose tracing rules c span split derived composed
      forest grown empty isComposed
    have count : composed.length = (branchesAmong rules c.forest (c.ids span.first split)
        (c.ids (split + 1) span.last)).length := by
      rw [show composed = _ from more.ids, Forest.nextIds, List.length_map, List.length_range']
    rw [result, wrote, count]
    exact ⟨added.append more, rfl⟩

end Split

/-- With the shorter cells done, a longer cell is filled as `Chart.fill` fills it. -/
theorem fillPhrase_eq {done : List Span} (filled : c.Filled rules tokens done)
    (longer : span.first < span.last)
    (parts : ∀ split ∈ splits span,
      ⟨span.first, split⟩ ∈ done ∧ ⟨split + 1, span.last⟩ ∈ done) :
    (fillPhrase tracing rules c span).result = Chart.fill rules c span ∧
      (fillPhrase tracing rules c span).events =
        notes tracing ((splits span).flatMap (splitNotes rules tokens span)) := by
  obtain ⟨added, wrote⟩ := @Steps.foldlM_induction _ _
    (fillSplit tracing rules c.cells span)
    (fun split => notes tracing (splitNotes rules tokens span split))
    (fun before grown => c.forest.Adds (before.flatMap fun split =>
      branchesAmong rules c.forest (c.ids span.first split) (c.ids (split + 1) span.last)) grown)
    (splits span) ([], c.forest) (Forest.adds_nil c.forest)
    fun before split rest grown order added => by
      obtain ⟨left, right⟩ := parts split (by simp [order])
      rw [List.flatMap_append, List.flatMap_singleton]
      exact fillSplit_adds filled left right added
  have nodes := Chart.spanNodes_adds rules filled.known span
  rw [Chart.nodesOver, if_neg (Nat.ne_of_lt longer)] at nodes
  have same := added.unique nodes
  constructor
  · rw [Chart.fill_eq, ← same]
    rfl
  · rw [notes_flatMap, ← wrote]
    exact List.append_nil _

/-! ## All cells -/

/-- A chart under way in which the cells of these spans are filled, and no others. -/
def IsUnderWay (rules : RuleSet) (tokens : List Word) (done : List Span) (c : Chart) : Prop :=
  c = done.foldl (Chart.fill rules) (.blank tokens) ∧ c.Filled rules tokens done

theorem IsUnderWay.fill {done : List Span} (h : IsUnderWay rules tokens done c)
    (ordered : span.first ≤ span.last) (inside : span.last < tokens.length)
    (parts : ∀ split ∈ splits span,
      ⟨span.first, split⟩ ∈ done ∧ ⟨split + 1, span.last⟩ ∈ done) :
    IsUnderWay rules tokens (done ++ [span]) (Chart.fill rules c span) := by
  refine ⟨?_, h.2.fill ordered inside parts⟩
  rw [List.foldl_append, ← h.1]
  rfl

/-- The spans of one word. -/
def wordSpans (positions : List Nat) : List Span :=
  positions.map fun position => ⟨position, position⟩

theorem lt_of_mem_longerSpans {side : Nat} (member : span ∈ longerSpans side) :
    span.first < span.last := by
  obtain ⟨length, isLength, isSpan⟩ := List.mem_flatMap.1 member
  obtain ⟨first, -, rfl⟩ := List.mem_map.1 isSpan
  exact Nat.lt_add_of_pos_right (List.mem_range'_1.1 isLength).1

/-- The cells of single words are filled first, and the unknown words noted. -/
theorem foldlM_fillWord (tracing : Bool) (rules : RuleSet) (tokens : List Word) :
    IsUnderWay rules tokens (wordSpans (List.range tokens.length))
        ((List.range tokens.length).foldlM (fillWord tracing rules) (.blank tokens)).result ∧
      ((List.range tokens.length).foldlM (fillWord tracing rules) (.blank tokens)).events =
        notes tracing ((List.range tokens.length).flatMap (wordNotes rules tokens)) := by
  rw [notes_flatMap]
  refine @Steps.foldlM_induction _ _ _ _
    (fun done c => IsUnderWay rules tokens (wordSpans done) c) _ _
    ⟨rfl, Chart.filled_blank rules tokens⟩ fun done position rest c order h => ?_
  have inside : position < tokens.length := List.mem_range.1 (by simp [order])
  rw [events_fillWord h.2.tokens_eq, result_fillWord (by rwa [h.2.tokens_eq]), wordSpans,
    List.map_append]
  exact ⟨h.fill (Nat.le_refl position) inside (by simp [splits]), rfl⟩

/-- Then the longer ones are filled, and the numbers of their splits noted. -/
theorem foldlM_fillPhrase (tracing : Bool)
    (words : IsUnderWay rules tokens (wordSpans (List.range tokens.length)) c) :
    IsUnderWay rules tokens (spans tokens.length)
        ((longerSpans tokens.length).foldlM (fillPhrase tracing rules) c).result ∧
      ((longerSpans tokens.length).foldlM (fillPhrase tracing rules) c).events =
        notes tracing ((longerSpans tokens.length).flatMap fun span =>
          (splits span).flatMap (splitNotes rules tokens span)) := by
  have all : spans tokens.length = wordSpans (List.range tokens.length) ++
      longerSpans tokens.length := spans_eq tokens.length
  rw [notes_flatMap, all]
  refine @Steps.foldlM_induction _ _ _ _
    (fun done c => IsUnderWay rules tokens (wordSpans (List.range tokens.length) ++ done) c) _ _
    (by rwa [List.append_nil]) fun done span rest c order h => ?_
  have longer := @lt_of_mem_longerSpans span tokens.length (by simp [order])
  rw [order, ← List.append_assoc] at all
  obtain ⟨ordered, inside⟩ := Chart.mem_spans.1 (show span ∈ spans tokens.length by simp [all])
  have parts := Chart.parts_mem_of_order all
  obtain ⟨filled, wrote⟩ := @fillPhrase_eq tracing rules tokens c span _ h.2 longer parts
  rw [filled, wrote, ← List.append_assoc]
  exact ⟨h.fill ordered inside parts, rfl⟩

/-- **A chart that is filled with notes on the way is the chart, and the notes are its trace.** -/
theorem chart_eq (tracing : Bool) (rules : RuleSet) (some_ : tokens ≠ []) :
    (chart tracing rules tokens).result = .ok (ofTokens rules tokens) ∧
      (chart tracing rules tokens).events = chartTrace tracing (ofTokens rules tokens) := by
  obtain ⟨words, wroteWords⟩ := foldlM_fillWord tracing rules tokens
  obtain ⟨⟨phrases, -⟩, wrotePhrases⟩ := foldlM_fillPhrase tracing words
  change _ = ofTokens rules tokens at phrases
  have trace : chartTrace tracing (ofTokens rules tokens) =
      notes tracing (Trace.parsing (ofTokens rules tokens)) := rfl
  have totals (line : String) : (Steps.noteIf tracing line).events = notes tracing [line] := by
    cases tracing <;> rfl
  rw [chart, if_neg (by simpa using some_)]
  simp only [Steps.result_bind, Steps.events_bind, Steps.result_pure, Steps.events_pure, phrases,
    wroteWords, wrotePhrases, totals, List.append_nil, true_and]
  rw [trace, parsing_ofTokens, notes_append, notes_append, List.append_assoc]

/-! ## The program -/

variable {σ : Type} {options : Options} {surroundings : Surroundings σ} {start : Nonterminal}

theorem events_parseSentence (sentence : List Char) :
    (parseSentence tracing options rules start sentence).events =
      Program.parseSentence tracing options rules start sentence := by
  rw [parseSentence, Program.parseSentence]
  by_cases none : Text.words sentence = []
  · rw [none]
    rfl
  · obtain ⟨parsed, wrote⟩ := chart_eq tracing rules none
    simp only [Steps.events_bind, parsed, wrote, Steps.events_writeAll, Chart.parse_of_ne_nil none]

theorem report_parseInput (lines : List PhysicalLine) :
    (parseInput tracing options rules start lines).report =
      Program.parseInput tracing options rules start lines := by
  induction lines with
  | nil => rfl
  | cons line rest ih =>
      cases line with
      | error error => rfl
      | ok line =>
          rw [parseInput, Program.parseInput]
          split
          · exact ih
          · rw [← ih, ← events_parseSentence]
            rfl

theorem report_serve :
    (serve tracing options surroundings rules start).report =
      Program.serve tracing options surroundings rules start := by
  unfold serve Program.serve
  split
  · exact Steps.report_writeAll _ _
  · cases options.generate with
    | some amount => exact Steps.report_writeAll _ _
    | none =>
        dsimp only
        split
        · exact report_parseInput _
        · rw [Steps.report_bind, Steps.events_forM]
          simp only [events_parseSentence, Steps.report_pure, Report.after, List.append_nil]

theorem report_runWith :
    (runWith tracing options surroundings).report =
      Program.runWith tracing options surroundings := by
  unfold runWith Program.runWith
  cases GrammarFile.fileEntries options.file (surroundings.read options.file) with
  | error faults => exact Steps.report_writeAll _ _
  | ok entries =>
      dsimp only
      rw [Steps.report_bind, result_grammar, events_grammar]
      cases startSymbol options (GrammarFile.grammar entries) with
      | error fault => rfl
      | ok start => exact congrArg _ report_serve

/-- **A run that writes its trace on the way is the run that reads it off what is finished.** -/
theorem report_run (parse : ArgumentParser) (tracing : Bool) (arguments : List String)
    (surroundings : Surroundings σ) :
    (run parse tracing arguments surroundings).report =
      Program.run parse tracing arguments surroundings := by
  unfold run Program.run
  cases parse arguments with
  | error text => rfl
  | ok request =>
      cases request with
      | inform lines => exact Steps.report_writeAll _ _
      | run options => exact report_runWith

end Stepwise

end PhraseChart.Program
