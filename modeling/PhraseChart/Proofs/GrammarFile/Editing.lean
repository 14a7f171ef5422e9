/-
# PhraseChart.Proofs.GrammarFile.Editing -- edits of a text that its grammar does not show

Three edits leave the grammar of a text as it is: another end for its lines, a line more that says
nothing, and a rule line written as two.

A silent line moves the lines after it.  Loading looks at line numbers nowhere, it only passes them
on, so renumbering the lines renumbers the faults and does nothing else (`entries_renumber`); the
number 0, which stands for the whole file, has to stay.  With a silent line added the lines are read
as before, renumbered (`readLines_insert`).

A rule line whose alternatives are cut into two lists defines the same rules in the same order as
two lines for the two lists (`ofDefinitions_cut`), and there are such lines for every cut, since
there is a bar where the alternatives are cut (`RuleText.exists_cut`).

`load_edited` puts the three together.
-/
import PhraseChart.Proofs.GrammarFile.LineEnds
import PhraseChart.Proofs.GrammarFile.Refusal
import PhraseChart.Proofs.GrammarFile.RoundTrip

namespace PhraseChart

set_option autoImplicit false

/-! ## Renumbering -/

/-- The fault at another line of its file. -/
def LocatedFault.renumber (ρ : Nat → Nat) (f : LocatedFault) : LocatedFault :=
  { f with location := { f.location with line := ρ f.location.line } }

namespace GrammarFile

variable {ρ : Nat → Nat} {path text edited : String} {number other : Nat}
  {line one two : List Char} {before after : List (List Char)} {lines others : List PhysicalLine}
  {definitions front back : List Definition} {d : Definition} {lhs : Nonterminal}
  {xs ys : List Rhs}

def Entry.renumber (ρ : Nat → Nat) (e : Entry) : Entry := { e with number := ρ e.number }

def renumberReading (ρ : Nat → Nat) : Except LocatedFault Entry → Except LocatedFault Entry
  | .error f => .error (f.renumber ρ)
  | .ok e => .ok (e.renumber ρ)

/-- The number of a line once a line with this number has been put in. -/
def nextFrom (number line : Nat) : Nat := if number ≤ line then line + 1 else line

theorem undefinedUses_renumber (path : String) (es : List Entry) :
    undefinedUses path (es.map (Entry.renumber ρ)) =
      (undefinedUses path es).map (LocatedFault.renumber ρ) := by
  simp only [undefinedUses, List.map_map, List.flatMap_map, List.map_flatMap]
  rfl

/-- A grammar has no line numbers. -/
theorem grammar_renumber (es : List Entry) : grammar (es.map (Entry.renumber ρ)) = grammar es := by
  rw [grammar_eq, grammar_eq, List.map_map]
  rfl

theorem filterMap_faultOf?_renumber (readings : List (Except LocatedFault Entry)) :
    (readings.map (renumberReading ρ)).filterMap faultOf? =
      (readings.filterMap faultOf?).map (LocatedFault.renumber ρ) := by
  rw [List.filterMap_map, List.map_filterMap]
  apply List.filterMap_congr
  rintro (f | e) _ <;> rfl

theorem filterMap_entryOf?_renumber (readings : List (Except LocatedFault Entry)) :
    (readings.map (renumberReading ρ)).filterMap entryOf? =
      (readings.filterMap entryOf?).map (Entry.renumber ρ) := by
  rw [List.filterMap_map, List.map_filterMap]
  apply List.filterMap_congr
  rintro (f | e) _ <;> rfl

section Renumbering

variable (file : ρ 0 = 0)

include file

theorem readLine_renumber (path : String) (number : Nat) (line : PhysicalLine) :
    readLine path (ρ number) line = (readLine path number line).map (renumberReading ρ) := by
  cases line with
  | error error =>
      simp only [readLine, Option.map_some, renumberReading, LocatedFault.renumber, Location.file,
        file]
  | ok line =>
      unfold readLine
      by_cases silent : isSilent line = true
      · simp only [silent, if_true, Option.map_none]
      · simp only [silent]
        cases Definition.ofText line <;> rfl

/-- The same lines counted from another number. -/
theorem readLines_renumber (counted : ∀ i < lines.length, ρ (number + i) = other + i) :
    readLines path other lines = (readLines path number lines).map (renumberReading ρ) := by
  induction lines generalizing number other with
  | nil => rfl
  | cons line rest ih =>
      have here : ρ number = other := counted 0 (by simp)
      have later : readLines path (other + 1) rest =
          (readLines path (number + 1) rest).map (renumberReading ρ) := by
        -- Both counts go on by one, so what is known of them holds for the rest.
        apply ih
        intro i inside
        have next := counted (i + 1) (by simpa using inside)
        rw [Nat.add_assoc, Nat.add_comm 1 i, next]
        omega
      rw [readLines, readLines, ← here, readLine_renumber file, here]
      cases readLine path number line with
      | none => exact later
      | some reading => exact congrArg _ later

theorem entries_renumber
    (renumbered : readLines path 1 others = (readLines path 1 lines).map (renumberReading ρ)) :
    entries path others =
      ((entries path lines).map (List.map (Entry.renumber ρ))).mapError
        (List.map (LocatedFault.renumber ρ)) := by
  unfold entries
  simp only [renumbered, filterMap_faultOf?_renumber, filterMap_entryOf?_renumber,
    undefinedUses_renumber, List.isEmpty_map]
  split
  · rfl
  · split
    · -- That there is no rule line is a fault of the whole file.
      simp only [Except.map, Except.mapError, List.map_singleton, LocatedFault.renumber,
        Location.file, file]
    · split <;> rfl

end Renumbering

/-- **Loading passes line numbers on and does nothing else with them.** -/
theorem load_renumber (file : ρ 0 = 0)
    (renumbered : readLines path 1 (physicalLines edited) =
      (readLines path 1 (physicalLines text)).map (renumberReading ρ)) :
    load path edited = (load path text).mapError (List.map (LocatedFault.renumber ρ)) := by
  rw [load, load, entries_renumber file renumbered]
  cases entries path (physicalLines text) with
  | error faults => rfl
  | ok es => exact congrArg Except.ok (grammar_renumber es)

/-! ## A line that says nothing -/

theorem readLines_append (path : String) (number : Nat) (lines others : List PhysicalLine) :
    readLines path number (lines ++ others) =
      readLines path number lines ++ readLines path (number + lines.length) others := by
  induction lines generalizing number with
  | nil => rfl
  | cons line rest ih =>
      rw [List.cons_append, readLines, readLines, ih, List.length_cons, Nat.add_assoc,
        Nat.add_comm 1 rest.length]
      cases readLine path number line <;> rfl

/-- A silent line moves the numbers of the lines after it, and nothing else. -/
theorem readLines_insert (silent : ¬ Speaks line) (path : String) (lines others : List PhysicalLine) :
    readLines path 1 (lines ++ .ok line :: others) =
      (readLines path 1 (lines ++ others)).map (renumberReading (nextFrom (lines.length + 1))) := by
  have file : nextFrom (lines.length + 1) 0 = 0 := if_neg (by omega)
  have kept : readLines path 1 lines =
      (readLines path 1 lines).map (renumberReading (nextFrom (lines.length + 1))) := by
    apply readLines_renumber file
    intro i inside
    exact if_neg (by omega)
  have moved : readLines path (1 + lines.length + 1) others =
      (readLines path (1 + lines.length) others).map
        (renumberReading (nextFrom (lines.length + 1))) := by
    apply readLines_renumber file
    intro i _
    rw [nextFrom, if_pos (by omega)]
    omega
  calc readLines path 1 (lines ++ .ok line :: others)
      = readLines path 1 lines ++ readLines path (1 + lines.length + 1) others := by
        rw [readLines_append, readLines, readLine_of_not_speaks silent]
    _ = _ := by rw [readLines_append, List.map_append, ← kept, ← moved]

theorem load_insert (cut : Text.lines text.toList = before ++ after) (silent : ¬ Speaks line)
    (has : HasLines edited (before ++ line :: after)) :
    load path edited =
      (load path text).mapError
        (List.map (LocatedFault.renumber (nextFrom (before.length + 1)))) := by
  apply load_renumber
  · exact if_neg (by omega)
  · have inserted := readLines_insert silent path (before.map .ok) (after.map .ok)
    rwa [List.length_map, ← List.map_cons, ← List.map_append, ← List.map_append, ← cut,
      ← has.readLines_eq] at inserted

/-! ## Another end for the lines -/

/-- **Loading depends on the lines of a text up to blanks at their ends.** -/
theorem load_congr (has : HasLines edited (Text.lines text.toList)) :
    load path edited = load path text := by
  have read : readLines path 1 (physicalLines edited) = readLines path 1 (physicalLines text) :=
    has.readLines_eq
  rw [load, load, entries, entries, read]

/-! ## One rule line as two -/

/-- A rule line is not taken for a comment unless its name opens with the mark of comments. -/
theorem RuleText.speaks_iff (isRule : RuleText line d) :
    Speaks line ↔ d.lhs.name.toList.head? ≠ some ';' := by
  obtain ⟨_, spelled, -⟩ := Definition.ofText_eq_ok_iff.1 (ofText_eq_ok_iff_ruleText.2 isRule)
  obtain ⟨rest, front⟩ := spelled.dropWhile_eq
  have isName := spelled.isWritten _ List.mem_cons_self
  rw [GrammarFile.speaks_iff, isSilent, front]
  cases name : d.lhs.name.toList with
  | nil => exact absurd (String.toList_eq_nil_iff.1 name) isName.1
  | cons c others => simp

theorem defines_append_iff :
    Defines (before ++ after) definitions ↔
      ∃ front back, definitions = front ++ back ∧ Defines before front ∧ Defines after back := by
  simp only [Defines, ruleLines, List.filter_append, List.map_append]
  constructor
  · intro h
    obtain ⟨front, back, rfl, isFront, isBack⟩ := List.map_eq_append_iff.1 h.symm
    exact ⟨front, back, rfl, isFront.symm, isBack.symm⟩
  · rintro ⟨front, back, rfl, isFront, isBack⟩
    rw [isFront, isBack, List.map_append]

theorem defines_cons_iff (spoken : Speaks line) :
    Defines (line :: after) definitions ↔
      ∃ d back, definitions = d :: back ∧ RuleText line d ∧ Defines after back := by
  have kept : ruleLines (line :: after) = line :: ruleLines after :=
    List.filter_cons_of_pos (by simpa using speaks_iff.1 spoken)
  simp only [Defines, kept, List.map_cons, ← ofText_eq_ok_iff_ruleText]
  constructor
  · intro h
    obtain ⟨d, back, rfl, isRule, isBack⟩ := List.map_eq_cons_iff.1 h.symm
    exact ⟨d, back, rfl, isRule.symm, isBack.symm⟩
  · rintro ⟨d, back, rfl, isRule, isBack⟩
    rw [isRule, isBack, List.map_cons]

/-- **Cutting the alternatives of a definition into two changes no grammar.** -/
theorem ofDefinitions_cut :
    Grammar.ofDefinitions (front ++ ⟨lhs, xs⟩ :: ⟨lhs, ys⟩ :: back) =
      Grammar.ofDefinitions (front ++ ⟨lhs, xs ++ ys⟩ :: back) := by
  have start : (front ++ (⟨lhs, xs⟩ : Definition) :: ⟨lhs, ys⟩ :: back).head?.map Definition.lhs =
      (front ++ (⟨lhs, xs ++ ys⟩ : Definition) :: back).head?.map Definition.lhs := by
    cases front <;> rfl
  have rules : (front ++ (⟨lhs, xs⟩ : Definition) :: ⟨lhs, ys⟩ :: back).flatMap Definition.rules =
      (front ++ (⟨lhs, xs ++ ys⟩ : Definition) :: back).flatMap Definition.rules := by
    simp only [List.flatMap_append, List.flatMap_cons, Definition.rules, List.map_append,
      List.append_assoc]
  rw [Grammar.ofDefinitions, Grammar.ofDefinitions, start, rules]

theorem closed_cut_iff :
    Closed (front ++ ⟨lhs, xs⟩ :: ⟨lhs, ys⟩ :: back) ↔
      Closed (front ++ ⟨lhs, xs ++ ys⟩ :: back) := by
  have used : (front ++ (⟨lhs, xs⟩ : Definition) :: ⟨lhs, ys⟩ :: back).flatMap Definition.used =
      (front ++ (⟨lhs, xs ++ ys⟩ : Definition) :: back).flatMap Definition.used := by
    simp only [List.flatMap_append, List.flatMap_cons, Definition.used, List.append_assoc]
  have defined (name : Nonterminal) :
      name ∈ (front ++ (⟨lhs, xs⟩ : Definition) :: ⟨lhs, ys⟩ :: back).map Definition.lhs ↔
        name ∈ (front ++ (⟨lhs, xs ++ ys⟩ : Definition) :: back).map Definition.lhs := by
    simp
  have byUse (definitions : List Definition) : Closed definitions ↔
      ∀ name ∈ definitions.flatMap Definition.used, name ∈ definitions.map Definition.lhs := by
    simp only [Closed, List.mem_flatMap]
    constructor
    · rintro closed name ⟨d, isIn, isUsed⟩
      exact closed d isIn name isUsed
    · intro closed d isIn name isUsed
      exact closed name ⟨d, isIn, isUsed⟩
  simp only [byUse, used, defined]

/-- A definition that can be written has a rule line. -/
theorem ruleText_render (writable : d.IsWritable) : RuleText d.render.toList d :=
  ofText_eq_ok_iff_ruleText.1 (Definition.ofText_render writable)

theorem load_cut {g : Grammar} (loaded : load path text = .ok g)
    (cut : Text.lines text.toList = before ++ line :: after) (spoken : Speaks line)
    (isRule : RuleText line ⟨lhs, xs ++ ys⟩) (isOne : RuleText one ⟨lhs, xs⟩)
    (isTwo : RuleText two ⟨lhs, ys⟩) (has : HasLines edited (before ++ one :: two :: after)) :
    load path edited = .ok g := by
  obtain ⟨definitions, defines, -, closed, rfl⟩ := load_eq_ok_iff.1 loaded
  rw [cut, defines_append_iff] at defines
  obtain ⟨front, _, rfl, isFront, rest⟩ := defines
  obtain ⟨d, back, rfl, isThere, isBack⟩ := (defines_cons_iff spoken).1 rest
  obtain rfl := isThere.unique isRule
  have opens := isRule.speaks_iff.1 spoken
  have parted : Defines (before ++ one :: two :: after)
      (front ++ ⟨lhs, xs⟩ :: ⟨lhs, ys⟩ :: back) :=
    defines_append_iff.2 ⟨front, _, rfl, isFront,
      (defines_cons_iff (isOne.speaks_iff.2 opens)).2 ⟨_, _, rfl, isOne,
        (defines_cons_iff (isTwo.speaks_iff.2 opens)).2 ⟨_, back, rfl, isTwo, isBack⟩⟩⟩
  exact load_eq_ok_iff.2
    ⟨_, parted.congr has, by simp, closed_cut_iff.2 closed, ofDefinitions_cut.symm⟩

theorem intercalate_append_mark {α : Type} (mark : α) {firsts seconds : List (List α)}
    (some_ : firsts ≠ []) (more : seconds ≠ []) :
    [mark].intercalate (firsts ++ seconds) =
      [mark].intercalate firsts ++ mark :: [mark].intercalate seconds := by
  induction firsts with
  | nil => exact absurd rfl some_
  | cons first rest ih =>
      rw [List.cons_append, Token.intercalate_cons_mark mark first (by simp [more])]
      by_cases last : rest = []
      · rw [last, List.nil_append, List.intercalate_singleton]
      · rw [ih last, Token.intercalate_cons_mark mark first last, List.append_assoc,
          List.cons_append]

/-- **Where the alternatives of a rule line are cut there is a bar**, and what opens the line makes
a rule line of either side of it. -/
theorem RuleText.exists_cut (isRule : RuleText line ⟨lhs, xs ++ ys⟩) (some_ : xs ≠ [])
    (more : ys ≠ []) :
    ∃ opening first second, line = opening ++ (first ++ '|' :: second) ∧
      RuleText (opening ++ first) ⟨lhs, xs⟩ ∧ RuleText (opening ++ second) ⟨lhs, ys⟩ := by
  obtain ⟨blanks, between, parts, areBlanks, areBetween, isName, -, rfl, each⟩ := isRule
  have eachFirst := List.forall₂_take_append parts xs ys each
  have eachSecond := List.forall₂_drop_append parts xs ys each
  have nonempty {pieces : List (List Char)} {alternatives : List Rhs} (some_ : alternatives ≠ [])
      (each : List.Forall₂ PaddedAlternative pieces alternatives) : pieces ≠ [] := by
    rintro rfl
    exact some_ (List.forall₂_nil_left_iff.1 each)
  have someFirst := nonempty some_ eachFirst
  have someSecond := nonempty more eachSecond
  refine ⟨blanks ++ (lhs.name.toList ++ (between ++ ['='])),
    ['|'].intercalate (parts.take xs.length), ['|'].intercalate (parts.drop xs.length), ?_,
    ⟨blanks, between, _, areBlanks, areBetween, isName, someFirst, by simp, eachFirst⟩,
    ⟨blanks, between, _, areBlanks, areBetween, isName, someSecond, by simp, eachSecond⟩⟩
  rw [← intercalate_append_mark '|' someFirst someSecond, List.take_append_drop]
  simp

/-! ## All three -/

theorem beq_of_load {g : Grammar} (loaded : load path text = .ok g) : (g == g) = true := by
  obtain ⟨definitions, -, -, -, rfl⟩ := load_eq_ok_iff.1 loaded
  exact Grammar.beq_self (Grammar.indexed_ofDefinitions definitions)

/-- **The layout of a text does not matter to its grammar.**  With carriage returns in front of its
line feeds a text loads as before, with the same faults at the same lines if it has any.  With a
silent line added anywhere it has the same grammar or the same faults, those at this line or after
it one line later and those of the whole file where they were.  In a text that loads, a rule line
can be replaced by two that share its alternatives, cut at a bar.  Any lines without line feeds are
the lines of a text. -/
theorem load_edited (path text : String) :
    load path (withReturns text) = load path text ∧
    (∀ before line after edited, Text.lines text.toList = before ++ after → ¬ Speaks line →
      HasLines edited (before ++ line :: after) →
      load path edited =
        (load path text).mapError
          (List.map (LocatedFault.renumber (nextFrom (before.length + 1))))) ∧
    (∀ g, load path text = .ok g → (g == g) = true ∧
      ∀ before line after lhs xs ys, Text.lines text.toList = before ++ line :: after →
        Speaks line → RuleText line ⟨lhs, xs ++ ys⟩ → xs ≠ [] → ys ≠ [] →
        (∃ opening first second, line = opening ++ (first ++ '|' :: second) ∧
          RuleText (opening ++ first) ⟨lhs, xs⟩ ∧ RuleText (opening ++ second) ⟨lhs, ys⟩) ∧
        ∀ one two edited, RuleText one ⟨lhs, xs⟩ → RuleText two ⟨lhs, ys⟩ →
          HasLines edited (before ++ one :: two :: after) → load path edited = .ok g) ∧
    ∀ lines, (∀ line ∈ lines, '\n' ∉ line) →
      HasLines (.ofList (lines.flatMap (· ++ ['\n']))) lines := by
  refine ⟨load_congr (hasLines_withReturns text), ?_, ?_, fun _ => hasLines_ofList⟩
  · intro before line after edited cut silent has
    exact load_insert cut silent has
  · intro g loaded
    refine ⟨beq_of_load loaded, ?_⟩
    intro before line after lhs xs ys cut spoken isRule some_ more
    refine ⟨isRule.exists_cut some_ more, ?_⟩
    intro one two edited isOne isTwo has
    exact load_cut loaded cut spoken isRule isOne isTwo has

/-- A comment between its two faulty lines moves the second fault of `faultyText` only, and the
third line of `markedText` can be cut at the bar that is not inside quotes. -/
theorem load_edited_marked :
    load "file" (withReturns faultyText) =
      .error [⟨⟨"file", 3⟩, .blankInWord "a b"⟩, ⟨⟨"file", 4⟩, .unmatchedQuote⟩] ∧
    load "file" "; c\n\nS=\"a b\"|=\n ;\n\"\n" =
      .error [⟨⟨"file", 3⟩, .blankInWord "a b"⟩, ⟨⟨"file", 5⟩, .unmatchedQuote⟩] ∧
    ∃ g, load "file" markedText = .ok g ∧ (g == g) = true ∧
      load "file" "; S\n\nS = A A\r\nS = \"|=;\"\n S = A A\nA=\"a\"" = .ok g := by
  have faults : (readLines "file" 1 (physicalLines faultyText)).filterMap faultOf? =
      [⟨⟨"file", 3⟩, .blankInWord "a b"⟩, ⟨⟨"file", 4⟩, .unmatchedQuote⟩] := by
    rw [lineFaults_eq_iff, faultyLines_faultyText]
    exact .cons ⟨rfl, lineFault_blankInWord⟩ (.cons ⟨rfl, lineFault_unmatchedQuote⟩ .nil)
  have refused : load "file" faultyText =
      .error [⟨⟨"file", 3⟩, .blankInWord "a b"⟩, ⟨⟨"file", 4⟩, .unmatchedQuote⟩] :=
    load_eq_error_iff_entries.2 (entries_eq_error_iff.2
      (.inl ⟨faults ▸ List.cons_ne_nil _ _, faults⟩))
  have loaded : load "file" markedText = .ok (Grammar.ofDefinitions marked) :=
    load_eq_ok_iff.2 ⟨marked, defines_iff.2 forall₂_markedText, by decide, by decide, rfl⟩
  obtain ⟨returns, inserts, -, closes⟩ := load_edited "file" faultyText
  obtain ⟨-, -, cuts, -⟩ := load_edited "file" markedText
  obtain ⟨same, cut⟩ := cuts _ loaded
  refine ⟨returns.trans refused, ?_, _, loaded, same, ?_⟩
  · have has := closes (["; c".toList, [], "S=\"a b\"|=".toList] ++ " ;".toList :: ["\"".toList])
      (by decide)
    have closed : String.ofList ((["; c".toList, [], "S=\"a b\"|=".toList] ++
        " ;".toList :: ["\"".toList]).flatMap (· ++ ['\n'])) =
          "; c\n\nS=\"a b\"|=\n ;\n\"\n" := by decide
    rw [inserts _ _ _ _ (by decide) (by decide) (closed ▸ has), refused]
    rfl
  · have lines : Text.lines "; S\n\nS = A A\r\nS = \"|=;\"\n S = A A\nA=\"a\"".toList =
        ["; S".toList, []] ++ (Definition.render ⟨⟨"S"⟩, [.binary ⟨"A"⟩ ⟨"A"⟩]⟩).toList ::
          (Definition.render ⟨⟨"S"⟩, [.lexical "|=;"]⟩).toList ::
          [" S = A A".toList, "A=\"a\"".toList] := by decide
    have spoken : spokenLines markedText =
        ["S\t=A A|\"|=;\" ".toList, " S = A A".toList, "A=\"a\"".toList] := by decide
    have isRule : RuleText "S\t=A A|\"|=;\" ".toList
        ⟨⟨"S"⟩, [.binary ⟨"A"⟩ ⟨"A"⟩] ++ [.lexical "|=;"]⟩ :=
      (List.forall₂_cons.1 (spoken ▸ forall₂_markedText)).1
    exact (cut ["; S".toList, []] _ _ _ _ _ (by decide) (by decide) isRule (by simp) (by simp)).2
      _ _ _ (ruleText_render (by decide)) (ruleText_render (by decide)) (lines ▸ hasLines_lines _)

end GrammarFile

end PhraseChart
