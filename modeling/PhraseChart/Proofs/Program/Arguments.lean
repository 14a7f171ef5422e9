/-
# PhraseChart.Proofs.Program.Arguments -- sentences behind a command line

A command line that asks for a run can be given further sentences.  Behind two hyphens everything
is a name, also what opens with a hyphen, and the first name, the file, has been given.  So
`withSentences` puts two hyphens there, unless the command line holds them, and then the sentences;
nothing else about the options changes (`ofArguments_withSentences`).
-/
import PhraseChart.Program.Arguments

namespace PhraseChart.Program

set_option autoImplicit false

def Options.addSentences (options : Options) (sentences : List String) : Options :=
  { options with sentences := options.sentences ++ sentences }

/-- Two hyphens, unless one of the arguments is that. -/
def closing (arguments : List String) : List String :=
  if "--" ∈ arguments then [] else ["--"]

def withSentences (arguments sentences : List String) : List String :=
  arguments ++ (closing arguments ++ sentences)

variable {draft : Draft} {options : Options} {argument : String}

theorem withSentences_cons_of_ne (other : argument.toList ≠ ['-', '-'])
    (rest sentences : List String) :
    withSentences (argument :: rest) sentences = argument :: withSentences rest sentences := by
  have differs : "--" ≠ argument := by
    rintro rfl
    exact other rfl
  simp [withSentences, closing, differs]

theorem withSentences_cons_of_eq (same : argument.toList = ['-', '-'])
    (rest sentences : List String) :
    withSentences (argument :: rest) sentences = argument :: (rest ++ sentences) := by
  obtain rfl : argument = "--" := String.toList_inj.1 same
  simp [withSentences, closing]

/-! ## Names at the end -/

/-- Behind arguments that are complete, each name is one more sentence. -/
theorem finish_of_takeName {sentence : String} (finished : draft.finish = .ok (.run options)) :
    ∃ next, draft.takeName sentence = .ok next ∧
      next.finish = .ok (.run (options.addSentences [sentence])) := by
  rw [Draft.finish] at finished
  split at finished
  · cases finished
  · rename_i file named
    cases finished
    refine ⟨_, by rw [Draft.takeName, named]; rfl, ?_⟩
    simp [Draft.finish, Options.addSentences]

theorem readNames_of_finish (finished : draft.finish = .ok (.run options))
    (sentences : List String) :
    readNames draft sentences = .ok (.run (options.addSentences sentences)) := by
  induction sentences generalizing draft options with
  | nil => simpa [readNames, Options.addSentences] using finished
  | cons sentence rest ih =>
      obtain ⟨next, taken, finishedNext⟩ := @finish_of_takeName _ _ sentence finished
      rw [readNames, taken]
      simp only [ih finishedNext, Options.addSentences, List.append_assoc, List.singleton_append]

/-- Names that are read may be followed by others. -/
theorem readNames_append {names : List String}
    (isRun : readNames draft names = .ok (.run options)) (sentences : List String) :
    readNames draft (names ++ sentences) = .ok (.run (options.addSentences sentences)) := by
  induction names generalizing draft with
  | nil => exact readNames_of_finish isRun sentences
  | cons name rest ih =>
      rw [readNames] at isRun
      rw [List.cons_append, readNames]
      cases taken : draft.takeName name with
      | error error => simp [taken] at isRun
      | ok next =>
          rw [taken] at isRun
          exact ih isRun

theorem readFrom_withSentences {progress : Progress} {arguments : List String}
    (isRun : readFrom progress arguments = .ok (.run options)) (sentences : List String) :
    readFrom progress (withSentences arguments sentences) =
      .ok (.run (options.addSentences sentences)) := by
  -- The cases that are left to `cases` refuse the arguments, or inform instead of running.
  fun_induction readFrom progress arguments with
  | case2 draft => exact readNames_of_finish isRun sentences
  | case4 draft argument rest isClosing =>
      rw [withSentences_cons_of_eq isClosing, readFrom]
      simp only [isClosing]
      exact readNames_append isRun sentences
  | case6 draft argument rest long some_ spelled progress read ih =>
      rw [withSentences_cons_of_ne (by rw [spelled]; simpa using some_), readFrom]
      simp only [spelled, read]
      exact ih isRun
  | case8 draft argument rest letter letters notClosing notLong spelled progress read ih =>
      rw [withSentences_cons_of_ne (by rw [spelled]; simpa using notClosing), readFrom]
      simp only [spelled, read]
      exact ih isRun
  | case10 draft argument rest next taken notClosing notLong notShort ih =>
      rw [withSentences_cons_of_ne notClosing, readFrom]
      simp only [taken]
      exact ih isRun
  | case13 draft setting argument rest next stored notOption ih =>
      rw [withSentences_cons_of_ne (notOption _ _), readFrom]
      simp only [stored]
      exact ih isRun
  | _ => cases isRun

/-- The parser answers what is read, and words the refusals only. -/
theorem ofArguments_eq_ok_iff {arguments : List String} {request : Request} :
    Request.ofArguments arguments = .ok request ↔
      readFrom (.names .empty) arguments = .ok request := by
  rw [Request.ofArguments]
  cases readFrom (.names .empty) arguments with
  | error error => exact ⟨nofun, nofun⟩
  | ok read =>
      exact ⟨fun same => congrArg Except.ok (Except.ok.inj same),
        fun same => congrArg Except.ok (Except.ok.inj same)⟩

theorem ofArguments_withSentences {arguments : List String}
    (isRun : Request.ofArguments arguments = .ok (.run options)) (sentences : List String) :
    Request.ofArguments (withSentences arguments sentences) =
      .ok (.run (options.addSentences sentences)) :=
  ofArguments_eq_ok_iff.2 (readFrom_withSentences (ofArguments_eq_ok_iff.1 isRun) sentences)

end PhraseChart.Program
