/-
# PhraseChart.Proofs.Program.Generating -- the program accepts what it generates

A sentence that is drawn is the yield of a permitted derivation, and a chart holds all
derivations of a sentence, so the derivation that was drawn is one of the parses
(`Sampling.Permitted.mem_parses`).  For a grammar from a file the words of the sentence can
also be told apart when they are printed with single spaces between them, because loading lets
no empty word and no blank inside a word pass (`isWord_of_mem_words`).

Both together make the round trip from one run of the program to the next: whatever a run
prints when it generates, a run that parses accepts, whether it finds the line among the
sentences of its command line or on its standard input.  Such a run writes the line, its cells
if they are asked for, and its parses; it has nothing to say about unknown words or a missing
parse (`Accepted`).
-/
import PhraseChart.Program.Run
import PhraseChart.Proofs.Chart.Lexicon
import PhraseChart.Proofs.GrammarFile.Loaded
import PhraseChart.Proofs.Sampling.Drawing
import PhraseChart.Proofs.Text.Encoding
import PhraseChart.Proofs.Text.Words

namespace PhraseChart

set_option autoImplicit false

variable {rules : RuleSet} {maxDepth : Nat} {symbol : Nonterminal} {tree : Tree}

/-! ## What is drawn has a parse -/

theorem Sampling.Permitted.mem_parses (indexed : rules.Indexed)
    (permitted : Permitted rules maxDepth symbol tree) :
    tree ∈ (Chart.ofTokens rules tree.words).parses symbol :=
  (Chart.mem_parses_iff tree.words_ne_nil indexed).2
    ⟨permitted.label_eq, rfl, permitted.isDerivation⟩

/-- When the words of all rules could be tokens, so could those of a derivation. -/
theorem isWord_of_mem_words (checked : ∀ rule ∈ rules.toList, rule.rhs.IsChecked)
    (follows : tree.IsDerivation rules) : ∀ word ∈ tree.words, Text.IsWord word := by
  intro word member
  obtain ⟨label, isRule⟩ := follows.exists_lexical member
  exact checked _ isRule

namespace Program

open GrammarFile (Entry)

variable {σ : Type} {source : Sampling.Source σ} {state : σ} {amount : Nat}

/-! ## What is printed was drawn -/

/-- Every line that is printed is a sentence, joined by single spaces. -/
theorem exists_sentence_of_output {start : Nonterminal} {line : String}
    (printed : .output line ∈ generate rules maxDepth start source amount state) :
    ∃ before words after,
      Sampling.sentence source rules maxDepth start before = .ok words after ∧
        line = " ".intercalate words := by
  induction amount generalizing state with
  | zero => simp [generate] at printed
  | succ amount ih =>
      rw [generate] at printed
      cases drawn : Sampling.sentence source rules maxDepth start state with
      | ok words after =>
          rw [drawn] at printed
          rcases List.mem_cons.1 printed with here | later
          · exact ⟨state, words, after, drawn, Event.output.inj here⟩
          · exact ih later
      | error failure after =>
          rw [drawn] at printed
          rcases List.mem_cons.1 printed with here | later
          · cases here
          · exact ih later

/-! ## What is written about a sentence with a parse -/

/-- The lines about a sentence whose words are known and that has a parse. -/
def acceptingLines (options : Options) (start : Nonterminal) (chart : Chart) : List String :=
  " ".intercalate chart.tokens ::
    ((if options.chart then chartLines chart else []) ++
      ((chart.parses start).zipIdx 1).flatMap fun (tree, number) =>
        parseLines options.pretty tree number)

theorem resultLines_eq_acceptingLines {options : Options} {start : Nonterminal} {chart : Chart}
    (known : chart.unknownWords = []) (parsed : chart.parses start ≠ []) :
    resultLines options start chart = acceptingLines options start chart := by
  have some_ : (chart.parses start).isEmpty = false := by simpa using parsed
  simp [resultLines, acceptingLines, known, some_]

/-- A run has nothing to complain of in a line of words that were drawn. -/
theorem parseSentence_eq_acceptingLines {start : Nonterminal} (indexed : rules.Indexed)
    (checked : ∀ rule ∈ rules.toList, rule.rhs.IsChecked)
    (permitted : Sampling.Permitted rules maxDepth start tree) (tracing : Bool)
    (options : Options) :
    parseSentence tracing options rules start (" ".intercalate tree.words).toList =
      chartTrace tracing (Chart.ofTokens rules tree.words) ++
        (acceptingLines options start (Chart.ofTokens rules tree.words)).map .output := by
  have cut := Text.words_intercalate (isWord_of_mem_words checked permitted.isDerivation)
  have known := Chart.unknownWords_eq_nil indexed permitted.isDerivation
  have parsed := List.ne_nil_of_mem (permitted.mem_parses indexed)
  rw [parseSentence, cut, Chart.parse_of_ne_nil tree.words_ne_nil]
  simp only [resultLines_eq_acceptingLines known parsed]

/-! ## Parsing in a run of its own -/

/-- The options of a run that parses sentences with the same grammar and start symbol. -/
def Options.parsing (options : Options) (sentences : List String) : Options :=
  { options with printGrammar := false, generate := none, sentences }

/-- What a run finds around it when its standard input holds one line. -/
def Surroundings.reading (surroundings : Surroundings σ) (line : String) : Surroundings σ :=
  { surroundings with standardInput := Text.encode (line.toList ++ ['\n']) }

variable {tracing : Bool} {options : Options} {surroundings : Surroundings σ} {line : String}
  {start : Nonterminal}

theorem serve_parsing_sentence :
    serve tracing (options.parsing [line]) surroundings rules start =
      { status := .success, events := parseSentence tracing options rules start line.toList } := by
  simp only [serve, Options.parsing, Bool.false_eq_true, if_false, List.isEmpty_cons,
    List.flatMap_cons, List.flatMap_nil, List.append_nil]
  rfl

theorem serve_parsing_input (words : Text.words line.toList ≠ [])
    (oneLine : Text.OnlySpaces line.toList) :
    serve tracing (options.parsing []) (surroundings.reading line) rules start =
      { status := .success, events := parseSentence tracing options rules start line.toList } := by
  have free : '\n' ∉ line.toList := oneLine.not_mem (by decide) (by decide)
  have bare : line.toList.getLast? ≠ some '\r' := fun final =>
    oneLine.not_mem (by decide) (by decide) (List.mem_of_getLast? final)
  have read : GrammarFile.physicalByteLines (Text.encode (line.toList ++ ['\n'])) =
      [.ok line.toList] := by
    simpa using @GrammarFile.physicalByteLines_encode [line.toList] (by simpa) (by simpa)
  have visible : ¬ line.toList.all Text.isBlank = true := fun blank =>
    words (Text.words_eq_nil_of_blank blank)
  simp only [serve, Options.parsing, Surroundings.reading, read, parseInput, visible,
    Bool.false_eq_true, List.isEmpty_nil, if_true, if_false, Report.after, List.append_nil]
  rfl

/-- After loading, a run is what it does with the grammar and the start symbol. -/
theorem runWith_eq {entries : List Entry}
    (loaded : GrammarFile.fileEntries options.file (surroundings.read options.file) = .ok entries)
    (started : startSymbol options (GrammarFile.grammar entries) = .ok start) :
    runWith tracing options surroundings =
      (serve tracing options surroundings (GrammarFile.grammar entries).rules start).after
        (fileTrace tracing options.file entries) := by
  rw [runWith, loaded]
  simp only [started]

/-- The program derives a line from the start symbol that the options ask for, whether the line
is a sentence of the command line or stands on standard input. -/
def Accepted (options : Options) (surroundings : Surroundings σ) (line : String) : Prop :=
  ∃ entries start chart,
    GrammarFile.fileEntries options.file (surroundings.read options.file) = .ok entries ∧
    startSymbol options (GrammarFile.grammar entries) = .ok start ∧
    Chart.parse (GrammarFile.grammar entries).rules (Text.words line.toList) = .ok chart ∧
    " ".intercalate chart.tokens = line ∧ chart.derives start = true ∧ chart.parses start ≠ [] ∧
    ∀ tracing,
      let report : Report :=
        { status := .success
          events := fileTrace tracing options.file entries ++
            (chartTrace tracing chart ++ (acceptingLines options start chart).map .output) }
      runWith tracing (options.parsing [line]) surroundings = report ∧
        runWith tracing (options.parsing []) (surroundings.reading line) = report

/-- Whatever words the source yields, the lines that are printed are accepted. -/
theorem accepted_of_generate {υ : Type} {wordSource : Sampling.Source υ} {stream : υ}
    {entries : List Entry}
    (loaded : GrammarFile.fileEntries options.file (surroundings.read options.file) = .ok entries)
    (started : startSymbol options (GrammarFile.grammar entries) = .ok start)
    (printed : .output line ∈ generate (GrammarFile.grammar entries).rules options.maxDepth start
      wordSource amount stream) : Accepted options surroundings line := by
  have indexed : (GrammarFile.grammar entries).rules.Indexed := RuleSet.indexed_ofList _
  obtain ⟨bytes, -, read⟩ := GrammarFile.fileEntries_eq_ok_iff.1 loaded
  have checked : ∀ rule ∈ (GrammarFile.grammar entries).rules.toList, rule.rhs.IsChecked :=
    fun _ member => GrammarFile.isChecked_of_entries read member
  obtain ⟨before, words, after, drawn, rfl⟩ := exists_sentence_of_output printed
  obtain ⟨tree, permitted, rfl⟩ := Sampling.permitted_of_sentence indexed drawn
  have each := isWord_of_mem_words checked permitted.isDerivation
  have cut := Text.words_intercalate each
  have isParse := permitted.mem_parses indexed
  have written (tracing : Bool) := parseSentence_eq_acceptingLines indexed checked permitted tracing
    options
  refine ⟨entries, start, _, loaded, started, ?_, ?_,
    (Chart.derives_iff_exists_parse tree.words_ne_nil).2 ⟨tree, isParse⟩,
    List.ne_nil_of_mem isParse, fun tracing => ⟨?_, ?_⟩⟩
  · rw [cut, Chart.parse_of_ne_nil tree.words_ne_nil]
  · rw [Chart.tokens_ofTokens]
  · rw [@runWith_eq _ tracing (options.parsing _) surroundings start entries loaded started,
      serve_parsing_sentence, written]
    rfl
  · have words : Text.words (" ".intercalate tree.words).toList ≠ [] := by
      rw [cut]
      exact tree.words_ne_nil
    rw [@runWith_eq _ tracing (options.parsing _) (surroundings.reading _) start entries loaded
      started, serve_parsing_input words (Text.onlySpaces_intercalate each), written]
    rfl

theorem output_not_mem_fileTrace {entries : List Entry} {path : String} :
    .output line ∉ fileTrace tracing path entries := by
  unfold fileTrace
  split <;> simp

theorem serve_generate (silent : options.printGrammar = false)
    (asked : options.generate = some amount) :
    serve tracing options surroundings rules start =
      { status := .success
        events := generate rules options.maxDepth start surroundings.source amount
          surroundings.state } := by
  simp [serve, silent, asked]

/-- A run that generates prints the lines that are generated, and no others. -/
theorem exists_generate_of_output (silent : options.printGrammar = false)
    (asked : options.generate = some amount)
    (printed : .output line ∈ (runWith tracing options surroundings).events) :
    ∃ entries start,
      GrammarFile.fileEntries options.file (surroundings.read options.file) = .ok entries ∧
      startSymbol options (GrammarFile.grammar entries) = .ok start ∧
      .output line ∈ generate (GrammarFile.grammar entries).rules options.maxDepth start
        surroundings.source amount surroundings.state := by
  rw [runWith] at printed
  cases loaded : GrammarFile.fileEntries options.file (surroundings.read options.file) with
  | error faults => simp [loaded] at printed
  | ok entries =>
      simp only [loaded, Report.after] at printed
      rcases List.mem_append.1 printed with traced | served
      · exact absurd traced output_not_mem_fileTrace
      · cases started : startSymbol options (GrammarFile.grammar entries) with
        | error fault => simp [started] at served
        | ok start =>
            simp only [started, serve_generate silent asked] at served
            exact ⟨entries, start, rfl, started, served⟩

end Program

open Program in
/-- **What is drawn is parsed, and what is generated is accepted.**  A sentence of any rule set
has a parse that is no deeper than permitted.  A sentence of a grammar from a file is cut at
its blanks into the words that were drawn, so whatever a run prints when it generates is
accepted from the same start symbol, and this does not depend on the words of the source. -/
theorem sentence_accepted {σ : Type} (source : Sampling.Source σ) (maxDepth : Nat)
    (symbol : Nonterminal) (state after : σ) (words : List Word) :
    (∀ inserted,
      Sampling.sentence source (.ofList inserted) maxDepth symbol state = .ok words after →
        words ≠ [] ∧ ∃ c, Chart.parse (.ofList inserted) words = .ok c ∧
          c.derives symbol = true ∧ ∃ tree ∈ c.parses symbol, tree.depth ≤ maxDepth) ∧
    (∀ path text g, GrammarFile.load path text = .ok g →
      Sampling.sentence source g.rules maxDepth symbol state = .ok words after →
        Text.words (" ".intercalate words).toList = words) ∧
    (∀ (τ υ : Type) (options : Options) (surroundings : Surroundings τ)
        (entries : List GrammarFile.Entry) (start : Nonterminal) (wordSource : Sampling.Source υ)
        (amount : Nat) (stream : υ) (line : String),
      GrammarFile.fileEntries options.file (surroundings.read options.file) = .ok entries →
      startSymbol options (GrammarFile.grammar entries) = .ok start →
      .output line ∈ generate (GrammarFile.grammar entries).rules options.maxDepth start
        wordSource amount stream →
        Accepted options surroundings line) ∧
    (∀ (τ : Type) (tracing : Bool) (options : Options) (surroundings : Surroundings τ)
        (amount : Nat) (line : String),
      options.printGrammar = false → options.generate = some amount →
      .output line ∈ (runWith tracing options surroundings).events →
        Accepted options surroundings line) := by
  refine ⟨?_, ?_, ?_, ?_⟩
  · intro inserted drawn
    have indexed := RuleSet.indexed_ofList inserted
    obtain ⟨tree, permitted, rfl⟩ := Sampling.permitted_of_sentence indexed drawn
    have isParse := permitted.mem_parses indexed
    exact ⟨tree.words_ne_nil, _, Chart.parse_of_ne_nil tree.words_ne_nil,
      (Chart.derives_iff_exists_parse tree.words_ne_nil).2 ⟨tree, isParse⟩,
      tree, isParse, permitted.depth_le⟩
  · intro path text g loaded drawn
    obtain ⟨es, read, rfl⟩ := GrammarFile.load_eq_ok_iff_entries.1 loaded
    obtain ⟨tree, permitted, rfl⟩ :=
      Sampling.permitted_of_sentence (RuleSet.indexed_ofList _) drawn
    exact Text.words_intercalate (isWord_of_mem_words
      (fun _ member => GrammarFile.isChecked_of_entries read member) permitted.isDerivation)
  · intro τ υ options surroundings entries start wordSource amount stream line
    exact accepted_of_generate
  · intro τ tracing options surroundings amount line silent asked printed
    obtain ⟨entries, start, loaded, started, generated⟩ :=
      exists_generate_of_output silent asked printed
    exact accepted_of_generate loaded started generated

/-! A grammar of one sentence, and a seed whose first three words are accepted -/

def coupleText : String := "S = A A\nA = \"a\"\n"

def couple : List Definition :=
  [⟨⟨"S"⟩, [.binary ⟨"A"⟩ ⟨"A"⟩]⟩, ⟨⟨"A"⟩, [.lexical "a"]⟩]

def coupleRules : List Rule := [⟨⟨"S"⟩, .binary ⟨"A"⟩ ⟨"A"⟩⟩, ⟨⟨"A"⟩, .lexical "a"⟩]

def coupleOptions : Program.Options :=
  { file := "couple", sentences := [], start := none, generate := some 1, maxDepth := 2
    printGrammar := false, pretty := false, chart := false }

def coupleStream : Sampling.WordStream := .ofSeed [] 2

def coupleSurroundings : Program.Surroundings Sampling.WordStream :=
  { read := fun _ => .ok (Text.encode coupleText.toList), standardInput := []
    source := coupleStream.source, state := coupleStream }

theorem sentence_couple :
    Sampling.sentence coupleStream.source (.ofList coupleRules) 2 ⟨"S"⟩ coupleStream =
      .ok ["a", "a"] ⟨[], 811535379, 3⟩ := by
  have indexed := RuleSet.indexed_ofList coupleRules
  have pair : Sampling.alternatives (.ofList coupleRules) 2 0 ⟨"S"⟩ =
      [.binary ⟨"A"⟩ ⟨"A"⟩] := by
    rw [Sampling.alternatives, indexed.rulesFor_eq, RuleSet.toList_ofList]
    decide
  have single : Sampling.alternatives (.ofList coupleRules) 2 1 ⟨"A"⟩ = [.lexical "a"] := by
    rw [Sampling.alternatives, indexed.rulesFor_eq, RuleSet.toList_ofList]
    decide
  have leaf {before after : Sampling.WordStream}
      (chose : Sampling.chooseRhs coupleStream.source ⟨"A"⟩ [.lexical "a"] before =
        .ok (.lexical "a") after) :
      Sampling.drawTree coupleStream.source (.ofList coupleRules) 2 1 ⟨"A"⟩ before =
        .ok (.leaf ⟨"A"⟩ "a") after :=
    Sampling.drawTree_succ_eq_ok_iff.2 ⟨_, _, single ▸ chose, .inl ⟨"a", rfl, rfl, rfl⟩⟩
  have left := @leaf ⟨[], 1017233273, 1⟩ ⟨[], 1975575172, 2⟩ rfl
  have right := @leaf ⟨[], 1975575172, 2⟩ ⟨[], 811535379, 3⟩ rfl
  refine Sampling.map_eq_ok_iff.2 ⟨_, Sampling.drawTree_succ_eq_ok_iff.2 ⟨.binary ⟨"A"⟩ ⟨"A"⟩,
    ⟨[], 1017233273, 1⟩, ?_, .inr ⟨_, _, _, _, _, rfl, left, right, rfl⟩⟩, rfl⟩
  rw [Nat.sub_self, pair]
  rfl

/-- Each of the four parts at this grammar. -/
theorem sentence_accepted_couple :
    (∃ c, Chart.parse (.ofList coupleRules) ["a", "a"] = .ok c ∧ c.derives ⟨"S"⟩ = true) ∧
      GrammarFile.load "couple" coupleText = .ok (Grammar.ofDefinitions couple) ∧
      Text.words "a a".toList = ["a", "a"] ∧
      (∃ entries,
        GrammarFile.fileEntries "couple" (coupleSurroundings.read "couple") = .ok entries ∧
        .output "a a" ∈ Program.generate (GrammarFile.grammar entries).rules
          coupleOptions.maxDepth ⟨"S"⟩ coupleStream.source 1 coupleStream) ∧
      Program.Accepted { coupleOptions with pretty := true } coupleSurroundings "a a" ∧
      .output "a a" ∈ (Program.runWith false coupleOptions coupleSurroundings).events ∧
      Program.Accepted coupleOptions coupleSurroundings "a a" := by
  have lines : Text.lines coupleText.toList = couple.map fun d => d.render.toList := by decide
  have defines : GrammarFile.Defines (Text.lines coupleText.toList) couple := by
    rw [lines]
    exact GrammarFile.defines_render (by decide)
  have loaded : GrammarFile.load "couple" coupleText = .ok (Grammar.ofDefinitions couple) :=
    GrammarFile.load_eq_ok_iff.2 ⟨couple, defines, by decide, by decide, rfl⟩
  obtain ⟨entries, read, isGrammar⟩ := GrammarFile.load_eq_ok_iff_entries.1 loaded
  have bytes : GrammarFile.physicalByteLines (Text.encode coupleText.toList) =
      GrammarFile.physicalLines coupleText := by
    have closed : coupleText.toList =
        (couple.map fun d => d.render.toList).flatMap (· ++ ['\n']) := by decide
    rw [GrammarFile.physicalLines, lines, closed]
    exact GrammarFile.physicalByteLines_encode (by decide) (by decide)
  have loadedBytes : GrammarFile.fileEntries "couple" (coupleSurroundings.read "couple") =
      .ok entries :=
    GrammarFile.fileEntries_eq_ok_iff.2 ⟨_, rfl, by rw [bytes, read]⟩
  have started : Program.startSymbol coupleOptions (GrammarFile.grammar entries) = .ok ⟨"S"⟩ := by
    rw [isGrammar]
    rfl
  have generated : .output "a a" ∈ Program.generate (GrammarFile.grammar entries).rules
      coupleOptions.maxDepth ⟨"S"⟩ coupleStream.source 1 coupleStream := by
    rw [isGrammar]
    change _ ∈ Program.generate (.ofList coupleRules) 2 ⟨"S"⟩ coupleStream.source 1 coupleStream
    rw [Program.generate, sentence_couple]
    decide
  have printed : .output "a a" ∈
      (Program.runWith false coupleOptions coupleSurroundings).events := by
    rw [@Program.runWith_eq _ false coupleOptions coupleSurroundings ⟨"S"⟩ entries loadedBytes
      started, Program.serve_generate rfl rfl]
    exact List.mem_append_right _ generated
  obtain ⟨parsed, cut, fromSource, fromRun⟩ :=
    sentence_accepted coupleStream.source 2 ⟨"S"⟩ coupleStream ⟨[], 811535379, 3⟩ ["a", "a"]
  obtain ⟨-, c, isChart, derives, -⟩ := parsed coupleRules sentence_couple
  exact ⟨⟨c, isChart, derives⟩, loaded, cut _ _ _ loaded sentence_couple,
    ⟨entries, loadedBytes, generated⟩,
    fromSource _ _ _ coupleSurroundings entries ⟨"S"⟩ _ _ _ "a a" loadedBytes started generated,
    printed, fromRun _ false coupleOptions coupleSurroundings 1 "a a" rfl rfl printed⟩

end PhraseChart
