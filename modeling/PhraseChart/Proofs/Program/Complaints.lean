/-
# PhraseChart.Proofs.Program.Complaints -- nothing that was loaded lacks a definition

The sampler complains of three things: a nonterminal without a definition, a derivation that goes too
deep, and a source of random words that gives out.  A loaded grammar defines every nonterminal that
it uses, and its start symbol, so the first of these is never heard: not by a caller who samples a
loaded grammar from a nonterminal that it defines, and not by a user of the program
(`undefined_never_reported`).
-/
import PhraseChart.Proofs.Program.Written
import PhraseChart.Proofs.Sampling.Patience

namespace PhraseChart

set_option autoImplicit false

open Program in
/-- **Nothing that was loaded lacks a definition.**  From a nonterminal that a loaded grammar
defines, as its start symbol is, the sampler fails only by the depth or because the source gave out;
so a sequence of words leads to a sentence or beyond the depth, whatever the patience from some
bound on, or else to a choice that never ends.  A run that generates begins at such a nonterminal
and writes one line for each sentence that was asked for: the sentence, or the complaint that it went
too deep, or that the source gave out when it did.  No run reports a nonterminal without a
definition. -/
theorem undefined_never_reported :
    (∀ g : Grammar, GrammarFile.IsLoaded g →
      g.rules.defines g.start = true ∧
      ∀ symbol, g.rules.defines symbol = true →
        ∀ (σ : Type) (next : σ → UInt32 × σ) (maxDepth : Nat) (state : σ),
          (∀ patience failure after,
            Sampling.sentence ⟨next, patience⟩ g.rules maxDepth symbol state =
                .error failure after →
              failure = .depthExceeded maxDepth ∨
                failure = .noAcceptedWord ∧ ¬ Sampling.Source.LastsFrom ⟨next, patience⟩ state) ∧
          ((∀ patience, ∃ after,
            Sampling.sentence ⟨next, patience⟩ g.rules maxDepth symbol state =
              .error .noAcceptedWord after) ∨
          ∃ patience,
            (∃ words after, ∀ more, patience ≤ more →
              Sampling.sentence ⟨next, more⟩ g.rules maxDepth symbol state = .ok words after) ∨
            ∃ after, ∀ more, patience ≤ more →
              Sampling.sentence ⟨next, more⟩ g.rules maxDepth symbol state =
                .error (.depthExceeded maxDepth) after)) ∧
    (∀ (σ : Type) (tracing : Bool) (options : Options) (surroundings : Surroundings σ)
        (amount : Nat) (entries : List GrammarFile.Entry) (start : Nonterminal),
      options.printGrammar = false → options.generate = some amount →
      GrammarFile.fileEntries options.file (surroundings.read options.file) = .ok entries →
      startSymbol options (GrammarFile.grammar entries) = .ok start →
        (GrammarFile.grammar entries).rules.defines start = true ∧
        ∃ events, runWith tracing options surroundings =
            { status := .success, events := fileTrace tracing options.file entries ++ events } ∧
          events.length = amount ∧
          ∀ event ∈ events, (∃ words, event = .output (" ".intercalate words)) ∨
            event = .complaint (Sampling.Failure.depthExceeded options.maxDepth).message ∨
            event = .complaint Sampling.Failure.noAcceptedWord.message ∧
              ¬ surroundings.source.LastsFrom surroundings.state) ∧
    (∀ (σ : Type) (parse : ArgumentParser) (tracing : Bool) (arguments : List String)
        (surroundings : Surroundings σ),
      ∀ event ∈ (run parse tracing arguments surroundings).events, ∀ symbol,
        event.error? ≠ some (Sampling.Failure.undefinedNonterminal symbol).message) := by
  refine ⟨?_, ?_, ?_⟩
  · intro g isLoaded
    obtain ⟨path, lines, entries, loaded, rfl⟩ := isLoaded.exists_entries
    have indexed : (GrammarFile.grammar entries).rules.Indexed := RuleSet.indexed_ofList _
    have closed := GrammarFile.closed_of_entries loaded
    refine ⟨GrammarFile.defines_start_of_entries loaded, fun symbol defined σ next maxDepth state =>
      ⟨fun patience failure after failed => ?_,
        Sampling.sentence_settles indexed closed defined next state⟩⟩
    exact (Sampling.safe_sentence indexed closed defined).excused failed
  · intro σ tracing options surroundings amount entries start silent asked loaded started
    obtain ⟨events, isRun, length, drawn⟩ :=
      @runWith_generate _ tracing _ _ _ _ _ loaded started silent asked
    refine ⟨defines_of_startSymbol loaded started, events, isRun, length, fun event member => ?_⟩
    rcases drawn event member with isSentence | ⟨failure, rfl | ⟨rfl, gaveOut⟩, rfl⟩
    · exact .inl isSentence
    · exact .inr (.inl rfl)
    · exact .inr (.inr ⟨rfl, gaveOut⟩)
  · intro σ parse tracing arguments surroundings event member
    exact (isWritten_of_mem_run member).error?_ne

/-! A grammar without words: it loads, and every derivation from it goes too deep -/

def endless : List Definition := [⟨⟨"S"⟩, [.binary ⟨"S"⟩ ⟨"S"⟩]⟩]

def endlessOptions : Program.Options :=
  { file := "endless", sentences := [], start := some "S", generate := some 1, maxDepth := 2
    printGrammar := false, pretty := false, chart := false }

def endlessArguments : List String := ["endless", "-sS", "--generate=1", "--max-depth", "2"]

def endlessSurroundings : Program.Surroundings Unit :=
  { read := fun _ => .ok (Text.encode (endless.flatMap fun d => d.render.toList ++ ['\n']))
    standardInput := [], source := Sampling.Source.zeros, state := () }

theorem sentence_endless {σ : Type} (source : Sampling.Source σ) (maxDepth : Nat)
    (symbol : Nonterminal) (state after : σ) (words : List Word) :
    Sampling.sentence source (Grammar.ofDefinitions endless).rules maxDepth symbol state ≠
      .ok words after := by
  intro drawn
  obtain ⟨tree, permitted, -⟩ :=
    Sampling.permitted_of_sentence (Grammar.indexed_ofDefinitions endless) drawn
  obtain ⟨word, member⟩ := List.exists_mem_of_ne_nil _ tree.words_ne_nil
  obtain ⟨label, isRule⟩ := permitted.isDerivation.exists_lexical member
  simp [Grammar.mem_ofDefinitions, endless] at isRule

open Program in
/-- The sampler exceeds the depth, and so complains the run that asks for one sentence. -/
theorem undefined_never_reported_endless :
    GrammarFile.IsLoaded (Grammar.ofDefinitions endless) ∧
      (∃ after, Sampling.sentence Sampling.Source.zeros (Grammar.ofDefinitions endless).rules 2
        ⟨"S"⟩ () = .error (.depthExceeded 2) after) ∧
      run Request.ofArguments false endlessArguments endlessSurroundings =
        { status := .success
          events := [.complaint (Sampling.Failure.depthExceeded 2).message] } ∧
      (Event.complaint (Sampling.Failure.depthExceeded 2).message).error? ≠
        some (Sampling.Failure.undefinedNonterminal ⟨"S"⟩).message := by
  obtain ⟨sampled, generated, reported⟩ := undefined_never_reported
  obtain ⟨entries, loaded, isGrammar⟩ := @GrammarFile.exists_fileEntries endless (by decide)
    (by decide) (by decide) "endless"
  have isLoaded : GrammarFile.IsLoaded (Grammar.ofDefinitions endless) :=
    ⟨"endless", .inr ⟨_, by rw [GrammarFile.loadFile, loaded, ← isGrammar]; rfl⟩⟩
  obtain ⟨defined, each⟩ := sampled _ isLoaded
  have tooDeep := (each ⟨"S"⟩ defined _ Sampling.Source.zeros.next 2 ()).1 1
  have started : startSymbol endlessOptions (GrammarFile.grammar entries) = .ok ⟨"S"⟩ := by
    rw [isGrammar]
    exact if_pos defined
  have asked : run Request.ofArguments false endlessArguments endlessSurroundings =
      runWith false endlessOptions endlessSurroundings := rfl
  obtain ⟨-, events, isRun, length, drawn⟩ := generated _ false endlessOptions
    endlessSurroundings 1 entries ⟨"S"⟩ rfl rfl loaded started
  obtain ⟨event, rfl⟩ := List.length_eq_one_iff.1 length
  -- The one line that is written is not a sentence, because none can be drawn.
  obtain ⟨words, rfl⟩ | rfl | ⟨-, gaveOut⟩ := drawn event List.mem_cons_self
  · have printed : .output (" ".intercalate words) ∈
        (runWith false endlessOptions endlessSurroundings).events := by
      rw [isRun]
      exact List.mem_append_right _ List.mem_cons_self
    obtain ⟨others, start, same, -, among⟩ := exists_generate_of_output rfl rfl printed
    obtain rfl := Except.ok.inj (loaded.symm.trans same)
    obtain ⟨before, words, after, found, -⟩ := exists_sentence_of_output among
    rw [isGrammar] at found
    exact absurd found (sentence_endless _ _ _ _ _ _)
  · have isReport := asked.trans isRun
    refine ⟨isLoaded, ?_, isReport, ?_⟩
    · cases found : Sampling.sentence Sampling.Source.zeros (Grammar.ofDefinitions endless).rules 2
          ⟨"S"⟩ () with
      | ok words after => exact absurd found (sentence_endless _ _ _ _ _ _)
      | error failure after =>
          obtain rfl | ⟨-, gaveOut⟩ := tooDeep failure after found
          · exact ⟨after, rfl⟩
          · exact absurd Sampling.Source.lastsFrom_zeros gaveOut
    · refine reported _ Request.ofArguments false endlessArguments endlessSurroundings _ ?_ _
      rw [isReport]
      exact List.mem_cons_self
  · exact absurd Sampling.Source.lastsFrom_zeros gaveOut

end PhraseChart
