/-
# PhraseChart.Proofs.Program.Sentences -- sentences given, and sentences read

A run that parses takes its sentences from the command line or, if there are none, from standard
input.  `Holds` says that a text holds sentences, one on each line that is not blank, and
`parseInput_of_holds` that its lines then lead to what the sentences lead to: a line counts by its
words only, and those are the same with or without the carriage returns at its end.

No sentence has an influence on another, so what a run writes about several is what is written
about each, in their order.  Standard input that is not a text counts up to the first line that is
not: the lines in front of it are parsed as if there were no others
(`parseInput_of_unreadable`), and the run fails.  `sentences_given_or_read` is all of this about
whole runs.
-/
import Mathlib.Data.List.TakeWhile
import PhraseChart.Proofs.GrammarFile.Layout
import PhraseChart.Proofs.Program.Arguments
import PhraseChart.Proofs.Program.Generating

namespace PhraseChart

set_option autoImplicit false

open Text (isBlank Blanks)

/-! ## Texts that hold sentences -/

namespace Text

theorem words_append_blanks {blanks : List Char} (blank : Blanks blanks) (s : List Char) :
    words (s ++ blanks) = words s := by
  cases blanks with
  | nil => rw [List.append_nil]
  | cons c rest =>
      have tail : words rest = [] :=
        words_eq_nil_of_blank (List.all_eq_true.2 (List.forall_mem_cons.1 blank).2)
      rw [words_append_blank (blank c List.mem_cons_self), tail, List.append_nil]

theorem words_withoutFinal (line : List Char) : words (withoutFinal '\r' line) = words line := by
  by_cases final : line.getLast? = some '\r'
  · obtain ⟨before, rfl⟩ := List.getLast?_eq_some_iff.1 final
    rw [withoutFinal_concat, words_append_blanks (by simp [Blanks]; decide)]
  · rw [withoutFinal_of_ne final]

end Text

namespace Program

open GrammarFile (Entry PhysicalLine)

/-- A line is blank, or a sentence in front of carriage returns. -/
inductive Carries : List Char → List String → Prop
  | blank {line : List Char} : Blanks line → Carries line []
  | sentence (sentence : String) {returns : List Char} : (∀ c ∈ returns, c = '\r') →
      Carries (sentence.toList ++ returns) [sentence]

/-- The lines of a text carry these sentences.  The last one need not be closed. -/
inductive Holds : List Char → List String → Prop
  | last {line : List Char} {sentences : List String} :
      '\n' ∉ line → Carries line sentences → Holds line sentences
  | closed {line rest : List Char} {here later : List String} :
      '\n' ∉ line → Carries line here → Holds rest later →
        Holds (line ++ '\n' :: rest) (here ++ later)

variable {σ : Type} {parse : ArgumentParser} {tracing : Bool} {options : Options}
  {surroundings : Surroundings σ} {rules : RuleSet} {start : Nonterminal} {sentences : List String}

/-- Sentences on a line each are held. -/
theorem holds_closed (free : ∀ sentence ∈ sentences, '\n' ∉ sentence.toList) :
    Holds (sentences.flatMap fun sentence => sentence.toList ++ ['\n']) sentences := by
  induction sentences with
  | nil => exact .last List.not_mem_nil (.blank nofun)
  | cons sentence rest ih =>
      obtain ⟨freeHere, freeLater⟩ := List.forall_mem_cons.1 free
      have carries : Carries sentence.toList [sentence] := by
        simpa using @Carries.sentence sentence [] nofun
      rw [List.flatMap_cons, List.append_assoc]
      exact .closed freeHere carries (ih freeLater)

theorem parseSentence_congr {s t : List Char} (same : Text.words s = Text.words t) :
    parseSentence tracing options rules start s = parseSentence tracing options rules start t := by
  rw [parseSentence, parseSentence, same]

/-- A line counts by its words. -/
theorem parseInput_of_carries {line read : List Char} (carries : Carries line sentences)
    (spoken : ∀ sentence ∈ sentences, Text.words sentence.toList ≠ [])
    (same : Text.words read = Text.words line) (rest : List PhysicalLine) :
    parseInput tracing options rules start (.ok read :: rest) =
      (parseInput tracing options rules start rest).after
        (sentences.flatMap fun sentence =>
          parseSentence tracing options rules start sentence.toList) := by
  rw [parseInput]
  cases carries with
  | blank blanks =>
      have silent : read.all isBlank = true :=
        Text.words_eq_nil_iff.1
          (same.trans (Text.words_eq_nil_of_blank (List.all_eq_true.2 blanks)))
      rw [if_pos silent]
      rfl
  | sentence sentence isReturns =>
      have blanks : Blanks _ := fun c member => by rw [isReturns c member]; decide
      have words := same.trans (Text.words_append_blanks blanks sentence.toList)
      have visible : ¬ read.all isBlank = true := fun blank =>
        spoken sentence List.mem_cons_self (words ▸ Text.words_eq_nil_of_blank blank)
      rw [if_neg visible, parseSentence_congr words, List.flatMap_singleton]

/-- The lines of a text lead to what the sentences that it holds lead to. -/
theorem parseInput_of_holds {text : List Char} (holds : Holds text sentences)
    (spoken : ∀ sentence ∈ sentences, Text.words sentence.toList ≠ []) :
    parseInput tracing options rules start ((Text.lines text).map .ok) =
      { status := .success
        events := sentences.flatMap fun sentence =>
          parseSentence tracing options rules start sentence.toList } := by
  unfold Text.lines
  induction holds with
  | @last line sentences free carries =>
      rw [Text.splitLines_of_not_mem free]
      have alone : parseInput tracing options rules start [.ok line] =
          { status := .success
            events := sentences.flatMap fun sentence =>
              parseSentence tracing options rules start sentence.toList } :=
        (parseInput_of_carries carries spoken rfl []).trans (by simp [parseInput, Report.after])
      -- After the last line feed nothing is no line, but as a line it would be skipped anyway.
      cases line with
      | nil => exact alone
      | cons c rest => exact alone
  | @closed line rest here later free carries _ ih =>
      obtain ⟨spokenHere, spokenLater⟩ := List.forall_mem_append.1 spoken
      rw [Text.splitLines_append free, List.map_cons,
        parseInput_of_carries carries spokenHere (Text.words_withoutFinal line), ih spokenLater,
        List.flatMap_append]
      rfl

/-- What cannot be read ends the run, after all that was read before. -/
theorem parseInput_of_unreadable {front : List PhysicalLine}
    (readable : ∀ line ∈ front, ∃ text, line = .ok text) (error : ReadError)
    (rest : List PhysicalLine) :
    parseInput tracing options rules start (front ++ .error error :: rest) =
      { status := .failure
        events := (parseInput tracing options rules start front).events ++
          [.complaint ("Could not read stdin: " ++ error.text)] } := by
  induction front with
  | nil => rfl
  | cons line front ih =>
      obtain ⟨⟨text, rfl⟩, readableLater⟩ := List.forall_mem_cons.1 readable
      rw [List.cons_append, parseInput, parseInput, ih readableLater]
      by_cases blank : text.all isBlank = true
      · simp only [if_pos blank]
      · simp only [if_neg blank, Report.after, List.append_assoc]

/-! ## Lines that cannot be read -/

/-- The lines in front of the first that encodes no text. -/
def textLines (input : List UInt8) : List (List UInt8) :=
  (Text.byteLines input).takeWhile fun line => (Text.decode? line).isSome

/-- They are the lines of a piece of the input. -/
theorem exists_byteLines_eq_textLines (input : List UInt8) :
    ∃ front rest, front ++ rest = input ∧ Text.byteLines front = textLines input := by
  unfold textLines Text.byteLines
  induction input using Text.lines_induction (0x0A : UInt8) with
  | last line free =>
      by_cases isText : (Text.decode? line).isSome = true
      · refine ⟨line, [], line.append_nil, ?_⟩
        rw [Text.splitLines_of_not_mem free]
        split <;> simp [isText]
      · refine ⟨[], line, rfl, ?_⟩
        rw [Text.splitLines_of_not_mem free]
        split <;> simp [isText, Text.splitLines, Text.closePieces]
  | closed line rest free ih =>
      rw [Text.splitLines_append free, List.takeWhile_cons]
      split
      · obtain ⟨front, behind, rfl, same⟩ := ih
        exact ⟨line ++ 0x0A :: front, behind, by simp, by rw [Text.splitLines_append free, same]⟩
      · exact ⟨[], _, rfl, rfl⟩

theorem exists_decodeLine_of_mem_textLines {input line : List UInt8}
    (member : line ∈ textLines input) : ∃ text, GrammarFile.decodeLine line = .ok text := by
  have isText : (Text.decode? line).isSome = true :=
    @List.mem_takeWhile_imp _ (fun line => (Text.decode? line).isSome) _ _ member
  obtain ⟨text, decoded⟩ := Option.isSome_iff_exists.1 isText
  exact ⟨text, by rw [GrammarFile.decodeLine, decoded]⟩

/-- Behind them stands a line that cannot be read. -/
theorem exists_physicalByteLines_eq {input : List UInt8}
    (bad : ∃ line ∈ Text.byteLines input, Text.decode? line = none) :
    ∃ rest, GrammarFile.physicalByteLines input =
      (textLines input).map GrammarFile.decodeLine ++ .error .notText :: rest := by
  unfold textLines GrammarFile.physicalByteLines
  obtain ⟨line, isLine, notText⟩ := bad
  generalize Text.byteLines input = lines at isLine
  induction lines with
  | nil => cases isLine
  | cons first rest ih =>
      cases decoded : Text.decode? first with
      | none =>
          refine ⟨rest.map GrammarFile.decodeLine, ?_⟩
          simp [decoded, GrammarFile.decodeLine]
      | some text =>
          have later : line ∈ rest := (List.mem_cons.1 isLine).resolve_left fun same => by
            rw [same, decoded] at notText
            cases notText
          obtain ⟨behind, same⟩ := ih later
          exact ⟨behind, by simp [decoded, same]⟩

/-! ## Whole runs -/

def Surroundings.withInput (surroundings : Surroundings σ) (input : List UInt8) : Surroundings σ :=
  { surroundings with standardInput := input }

theorem serve_parsing (some_ : sentences ≠ []) :
    serve tracing (options.parsing sentences) surroundings rules start =
      { status := .success
        events := sentences.flatMap fun sentence =>
          parseSentence tracing options rules start sentence.toList } := by
  simp only [serve, Options.parsing, Bool.false_eq_true, if_false, List.isEmpty_iff, some_]
  rfl

theorem serve_parsing_nil :
    serve tracing (options.parsing []) surroundings rules start =
      parseInput tracing (options.parsing []) rules start
        (GrammarFile.physicalByteLines surroundings.standardInput) := by
  simp only [serve, Options.parsing, Bool.false_eq_true, if_false, List.isEmpty_nil, if_true]

theorem run_eq_runWith {arguments : List String}
    (isRun : parse arguments = .ok (.run options)) :
    run parse tracing arguments surroundings = runWith tracing options surroundings := by
  rw [run, isRun]

/-- Two runs that read the same file differ only in what they do with the grammar. -/
theorem runWith_congr {others : Options} {around : Surroundings σ}
    (file : others.file = options.file) (asked : others.start = options.start)
    (read : around.read = surroundings.read)
    (serves : ∀ rules start,
      serve tracing others around rules start = serve tracing options surroundings rules start) :
    runWith tracing others around = runWith tracing options surroundings := by
  simp only [runWith, startSymbol, file, asked, read, serves]

theorem serve_withInput_of_holds {text : List Char} (some_ : sentences ≠ [])
    (holds : Holds text sentences)
    (spoken : ∀ sentence ∈ sentences, Text.words sentence.toList ≠ []) :
    serve tracing (options.parsing sentences) surroundings rules start =
      serve tracing (options.parsing []) (surroundings.withInput (Text.encode text)) rules
        start := by
  rw [serve_parsing some_, serve_parsing_nil, Surroundings.withInput,
    GrammarFile.physicalByteLines_encode_lines, parseInput_of_holds holds spoken]
  rfl

/-- A run that cannot read a line fails, after all that it does with the lines in front. -/
theorem serve_withInput_of_unreadable {front input : List UInt8}
    (bad : ∃ line ∈ Text.byteLines input, Text.decode? line = none)
    (before : Text.byteLines front = textLines input) :
    serve tracing (options.parsing []) (surroundings.withInput input) rules start =
      { status := .failure
        events := (serve tracing (options.parsing []) (surroundings.withInput front) rules
          start).events ++ [.complaint ("Could not read stdin: " ++ ReadError.notText.text)] } := by
  obtain ⟨rest, cut⟩ := exists_physicalByteLines_eq bad
  have readable : ∀ line ∈ (textLines input).map GrammarFile.decodeLine,
      ∃ text, line = .ok text :=
    List.forall_mem_map.2 fun line member => exists_decodeLine_of_mem_textLines member
  rw [serve_parsing_nil, serve_parsing_nil, Surroundings.withInput, Surroundings.withInput, cut,
    parseInput_of_unreadable readable, GrammarFile.physicalByteLines, before]

/-- A run that does not get to its sentences ends in the same way on any input. -/
theorem refused_or_started (tracing : Bool) (options : Options) (surroundings : Surroundings σ) :
    (∃ events, ∀ input, runWith tracing options (surroundings.withInput input) =
      { status := .failure, events }) ∨
      ∃ entries start,
        GrammarFile.fileEntries options.file (surroundings.read options.file) = .ok entries ∧
        startSymbol options (GrammarFile.grammar entries) = .ok start := by
  cases loaded : GrammarFile.fileEntries options.file (surroundings.read options.file) with
  | error faults =>
      refine .inl ⟨faults.map fun fault => .complaint fault.render, fun input => ?_⟩
      simp only [runWith, Surroundings.withInput, loaded]
  | ok entries =>
      cases started : startSymbol options (GrammarFile.grammar entries) with
      | error fault =>
          refine .inl ⟨fileTrace tracing options.file entries ++ [.complaint fault.render],
            fun input => ?_⟩
          simp only [runWith, Surroundings.withInput, loaded, started, Report.after]
      | ok start => exact .inr ⟨entries, start, rfl, started⟩

theorem textOf_flatMap (channel : Event → Option String) (written : String → List Event)
    (sentences : List String) :
    Report.textOf ((sentences.flatMap written).filterMap channel) =
      String.join (sentences.map fun sentence =>
        Report.textOf ((written sentence).filterMap channel)) := by
  induction sentences with
  | nil => rfl
  | cons sentence rest ih =>
      rw [List.flatMap_cons, List.filterMap_append, List.map_cons, String.join_cons, ← ih,
        Report.textOf, List.map_append, String.join_append]
      rfl

theorem filterMap_output?_fileTrace {path : String} {entries : List Entry} :
    (fileTrace tracing path entries).filterMap Event.output? = [] := by
  unfold fileTrace
  split
  · rw [List.filterMap_map]
    exact List.filterMap_eq_nil_iff.2 fun _ _ => rfl
  · rfl

section Started

variable {entries : List Entry}
    (loaded : GrammarFile.fileEntries options.file (surroundings.read options.file) = .ok entries)
    (started : startSymbol options (GrammarFile.grammar entries) = .ok start)

include loaded started

/-- Each sentence is parsed as if there were no others. -/
theorem run_sentences {given : List String} (some_ : sentences ≠ [])
    (isGiven : parse given = .ok (.run (options.parsing sentences))) :
    run parse tracing given surroundings =
      { status := .success
        events := fileTrace tracing options.file entries ++ sentences.flatMap fun sentence =>
          parseSentence tracing options (GrammarFile.grammar entries).rules start
            sentence.toList } := by
  rw [run_eq_runWith isGiven,
    @runWith_eq _ tracing (options.parsing sentences) surroundings start entries loaded started,
    serve_parsing some_]
  rfl

theorem stdout_run_sentences {given : List String} (some_ : sentences ≠ [])
    (isGiven : parse given = .ok (.run (options.parsing sentences))) :
    (run parse tracing given surroundings).stdout =
      String.join (sentences.map fun sentence =>
        Report.textOf ((parseSentence tracing options (GrammarFile.grammar entries).rules start
            sentence.toList).filterMap Event.output?)) := by
  rw [run_sentences loaded started some_ isGiven, Report.stdout, List.filterMap_append,
    filterMap_output?_fileTrace, List.nil_append, textOf_flatMap]

/-- Without a trace there is nothing on standard error but what the sentences cause. -/
theorem stderr_run_sentences {given : List String} (some_ : sentences ≠ [])
    (isGiven : parse given = .ok (.run (options.parsing sentences))) :
    (run parse false given surroundings).stderr =
      String.join (sentences.map fun sentence =>
        Report.textOf ((parseSentence false options (GrammarFile.grammar entries).rules start
            sentence.toList).filterMap Event.error?)) := by
  rw [run_sentences loaded started some_ isGiven, Report.stderr, fileTrace,
    if_neg Bool.false_ne_true, List.nil_append, textOf_flatMap]

end Started

end Program

open Program in
/-- **Sentences may be given or read, and each stands for itself**, whatever parser reads the
command line.  One without sentences can be given any, as `Request.ofArguments` reads it, and a
text can hold any that are one line each.  A run on sentences
that are not blank writes what the run without them writes when its standard input holds them,
whatever blank lines and carriage returns are among them; and once a run gets to its sentences,
its output is that of the runs on each of them, one after the other.  Input that is not a text
fails the run behind the output of the lines in front. -/
theorem sentences_given_or_read {σ : Type} (parse : ArgumentParser) (tracing : Bool)
    (options : Options) (surroundings : Surroundings σ) (asked : List String)
    (isRun : parse asked = .ok (.run (options.parsing []))) :
    (∀ sentences,
      (Request.ofArguments asked = .ok (.run (options.parsing [])) →
        Request.ofArguments (withSentences asked sentences) =
          .ok (.run (options.parsing sentences))) ∧
        ((∀ sentence ∈ sentences, '\n' ∉ sentence.toList) →
          Holds (sentences.flatMap fun sentence => sentence.toList ++ ['\n']) sentences)) ∧
    (∀ (sentences given : List String), sentences ≠ [] →
      (∀ sentence ∈ sentences, ∃ c ∈ sentence.toList, isBlank c = false) →
      parse given = .ok (.run (options.parsing sentences)) →
        (∀ text, Holds text sentences →
          run parse tracing given surroundings =
            run parse tracing asked (surroundings.withInput (Text.encode text))) ∧
        ∀ (entries : List GrammarFile.Entry) (start : Nonterminal) (alone : String → List String),
          GrammarFile.fileEntries options.file (surroundings.read options.file) = .ok entries →
          startSymbol options (GrammarFile.grammar entries) = .ok start →
          (∀ sentence ∈ sentences,
            parse (alone sentence) = .ok (.run (options.parsing [sentence]))) →
            let report := run parse tracing given surroundings
            let single sentence := run parse tracing (alone sentence) surroundings
            report.status = .success ∧
              report.stdout = String.join (sentences.map fun sentence => (single sentence).stdout) ∧
              (tracing = false →
                report.stderr =
                  String.join (sentences.map fun sentence => (single sentence).stderr))) ∧
    (∀ input, (∃ line ∈ Text.byteLines input, Text.decode? line = none) →
      (∃ front rest, front ++ rest = input ∧ Text.byteLines front = textLines input) ∧
      ∀ front, Text.byteLines front = textLines input →
        let report := run parse tracing asked (surroundings.withInput input)
        report.status = .failure ∧
          report.stdout = (run parse tracing asked (surroundings.withInput front)).stdout) := by
  refine ⟨fun sentences => ⟨fun isAsked => ofArguments_withSentences isAsked sentences, holds_closed⟩,
    ?_, ?_⟩
  · intro sentences given some_ visible isGiven
    have spoken : ∀ sentence ∈ sentences, Text.words sentence.toList ≠ [] := by
      intro sentence member none
      obtain ⟨c, isIn, notBlank⟩ := visible sentence member
      have blank := List.all_eq_true.1 (Text.words_eq_nil_iff.1 none) c isIn
      rw [notBlank] at blank
      cases blank
    refine ⟨fun text holds => ?_, fun entries start alone loaded started isAlone => ?_⟩
    · rw [run_eq_runWith isGiven, run_eq_runWith isRun]
      exact runWith_congr rfl rfl rfl fun rules start =>
        serve_withInput_of_holds some_ holds spoken
    · refine ⟨by rw [run_sentences loaded started some_ isGiven], ?_, ?_⟩
      · rw [stdout_run_sentences loaded started some_ isGiven]
        refine congrArg _ (List.map_congr_left fun sentence member => ?_)
        rw [stdout_run_sentences loaded started (by simp) (isAlone sentence member)]
        simp
      · rintro rfl
        rw [stderr_run_sentences loaded started some_ isGiven]
        refine congrArg _ (List.map_congr_left fun sentence member => ?_)
        rw [stderr_run_sentences loaded started (by simp) (isAlone sentence member)]
        simp
  · intro input bad
    refine ⟨exists_byteLines_eq_textLines input, fun front before => ?_⟩
    rw [run_eq_runWith isRun, run_eq_runWith isRun]
    obtain ⟨events, refused⟩ | ⟨entries, start, loaded, started⟩ :=
      refused_or_started tracing (options.parsing []) surroundings
    · simp only [refused, and_self]
    · have served (input : List UInt8) := @runWith_eq _ tracing (options.parsing [])
        (surroundings.withInput input) start entries loaded started
      have silent (line : String) : [Event.complaint line].filterMap Event.output? = [] := rfl
      rw [served, served, serve_withInput_of_unreadable bad before]
      simp only [Report.after, Report.stdout, List.filterMap_append, silent, List.append_nil,
        and_self]

/-! Two sentences, the second of which opens with a hyphen, and a line that encodes no text -/

def coupleArguments : List String := ["couple", "--max-depth", "2"]

def hyphenArguments : List String := ["couple", "--max-depth", "2", "--", "a a", "-"]

def hyphenInput : List Char := "\r\na a\r\n \n-".toList

def latinInput : List UInt8 := [0x61, 0x0A, 0xE9, 0x0D, 0x0A, 0x61]

theorem holds_hyphenInput : Program.Holds hyphenInput ["a a", "-"] := by
  have blank (line : List Char) (blanks : line.all isBlank = true) : Program.Carries line [] :=
    .blank (List.all_eq_true.1 blanks)
  have first : Program.Carries "a a\r".toList ["a a"] :=
    @Program.Carries.sentence "a a" ['\r'] (by simp)
  have second : Program.Carries ['-'] ["-"] := @Program.Carries.sentence "-" [] (by simp)
  exact @Program.Holds.closed ['\r'] _ _ _ (by decide) (blank _ (by decide)) <|
    @Program.Holds.closed "a a\r".toList _ _ _ (by decide) first <|
    @Program.Holds.closed [' '] _ _ _ (by decide) (blank _ (by decide)) <|
    .last (by decide) second

theorem exists_couple_entries :
    ∃ entries, GrammarFile.fileEntries "couple" (coupleSurroundings.read "couple") = .ok entries ∧
      GrammarFile.grammar entries = Grammar.ofDefinitions couple ∧
      Program.startSymbol coupleOptions (GrammarFile.grammar entries) = .ok ⟨"S"⟩ := by
  have text : coupleText.toList = couple.flatMap fun d => d.render.toList ++ ['\n'] := by decide
  obtain ⟨entries, loaded, isGrammar⟩ := @GrammarFile.exists_fileEntries couple (by decide)
    (by decide) (by decide) "couple"
  rw [← text] at loaded
  refine ⟨entries, loaded, isGrammar, ?_⟩
  rw [isGrammar]
  rfl

open Program in
/-- Each of the three parts at a grammar of one sentence. -/
theorem sentences_given_or_read_hyphen :
    Request.ofArguments hyphenArguments = .ok (.run (coupleOptions.parsing ["a a", "-"])) ∧
      run Request.ofArguments false hyphenArguments coupleSurroundings =
        run Request.ofArguments false coupleArguments
          (coupleSurroundings.withInput (Text.encode hyphenInput)) ∧
      (let report := run Request.ofArguments false hyphenArguments coupleSurroundings
       let single sentence := run Request.ofArguments false
        (withSentences coupleArguments [sentence]) coupleSurroundings
       report.status = .success ∧
        report.stdout = String.join [(single "a a").stdout, (single "-").stdout] ∧
        report.stderr = String.join [(single "a a").stderr, (single "-").stderr]) ∧
      (let report := run Request.ofArguments false coupleArguments
        (coupleSurroundings.withInput latinInput)
       report.status = .failure ∧
        report.stdout = (run Request.ofArguments false coupleArguments
          (coupleSurroundings.withInput [0x61, 0x0A])).stdout) := by
  have isRun : Request.ofArguments coupleArguments = .ok (.run (coupleOptions.parsing [])) := rfl
  obtain ⟨added, given, unreadable⟩ :=
    sentences_given_or_read Request.ofArguments false coupleOptions coupleSurroundings
      coupleArguments isRun
  have isGiven : Request.ofArguments hyphenArguments =
      .ok (.run (coupleOptions.parsing ["a a", "-"])) := (added ["a a", "-"]).1 isRun
  obtain ⟨entries, loaded, -, started⟩ := exists_couple_entries
  have visible : ∀ sentence ∈ ["a a", "-"], ∃ c ∈ sentence.toList, isBlank c = false := by
    simp only [List.forall_mem_cons]
    exact ⟨⟨'a', by decide, by decide⟩, ⟨'-', by decide, by decide⟩, nofun⟩
  obtain ⟨asRead, asSingle⟩ := given _ hyphenArguments (by simp) visible isGiven
  obtain ⟨status, stdout, stderr⟩ := asSingle entries ⟨"S"⟩
    (fun sentence => withSentences coupleArguments [sentence]) loaded started
    fun sentence _ => (added [sentence]).1 isRun
  have notText : ∃ line ∈ Text.byteLines latinInput, Text.decode? line = none :=
    ⟨[0xE9], by decide, by decide⟩
  obtain ⟨-, each⟩ := unreadable latinInput notText
  exact ⟨isGiven, asRead hyphenInput holds_hyphenInput, ⟨status, stdout, stderr rfl⟩,
    each [0x61, 0x0A] (by decide)⟩

end PhraseChart
