/-
# PhraseChart.Proofs.GrammarFile.Faults -- what is wrong with a line

A line that speaks and is no rule line has one fault.  `LineFault` says which, in the order in
which the parts of a line are looked at: its quotes, the token that opens it, the token after that,
and then its alternatives from left to right, of which the first that is none decides
(`AlternativeFault`).

The conditions are about the tokens that the line spells, and a line spells tokens just when its
quotes come in pairs (`scan_eq_none_iff`).  `ofText_eq_error_iff` ties them to the reader: on a
line that is not blank it reports the fault that the line has.  Two causes are in nobody's way:
a line that is not blank has a token, and what stands between two bars holds none.
-/
import PhraseChart.Proofs.GrammarFile.Layout

namespace PhraseChart

set_option autoImplicit false

open Text (isBlank Blanks)

/-! ## Quotes -/

namespace Token

/-- **A line can be cut into tokens unless it has an odd number of quotes.** -/
theorem scan_eq_none_iff {s : List Char} : scan s = none ↔ s.count '"' % 2 = 1 := by
  fun_induction scan s with
  | case1 => simp
  | case2 rest ih => simp [ih]
  | case3 rest _ ih => simp [ih]
  | case4 rest unread =>
      have free := readToQuote_eq_none_iff.1 unread
      simp [List.count_eq_zero.2 free]
  | case5 rest text after read _ _ _ ih =>
      obtain ⟨rfl, free⟩ := readToQuote_eq_some_iff.1 read
      simp only [Option.map_eq_none_iff, ih, List.count_cons_self, List.count_append,
        List.count_eq_zero.2 free]
      omega
  | case6 c rest _ _ quote _ ih => rw [ih, List.count_cons_of_ne quote]
  | case7 c rest _ _ _ _ _ ih =>
      have free : '"' ∉ (readName (c :: rest)).1.toList := by
        intro inside
        have ordinary := isNameChar_of_mem_readName inside
        revert ordinary
        decide
      have whole := congrArg (List.count '"') (readName_append (c :: rest))
      rw [List.count_append, List.count_eq_zero.2 free, Nat.zero_add] at whole
      rw [Option.map_eq_none_iff, ih, whole]

end Token

/-! ## Alternatives -/

/-- What is wrong with the tokens between two bars. -/
inductive AlternativeFault : List Token → Fault → Prop
  | unexpectedEquals {tokens : List Token} : .equals ∈ tokens →
      AlternativeFault tokens .unexpectedEquals
  | emptyAlternative : AlternativeFault [] .emptyAlternative
  | emptyWord : AlternativeFault [.quoted ""] .emptyWord
  | blankInWord {word : String} : (∃ c ∈ word.toList, isBlank c = true) →
      AlternativeFault [.quoted word] (.blankInWord word)
  /-- The tokens are neither two names nor one quoted text. -/
  | notNormalForm {tokens : List Token} : tokens ≠ [] → .equals ∉ tokens →
      (∀ rhs : Rhs, tokens ≠ rhs.tokens) →
      AlternativeFault tokens (.notNormalForm (" ".intercalate (tokens.map Token.render)))

/-- The pieces between separators hold none. -/
theorem not_mem_of_mem_splitOn {α : Type} [BEq α] [LawfulBEq α] {a : α} {l part : List α}
    (isPart : part ∈ l.splitOn a) : a ∉ part := by
  induction l generalizing part with
  | nil =>
      obtain rfl : part = [] := by simpa using isPart
      simp
  | cons b rest ih =>
      rw [List.splitOn_cons_eq_if_modifyHead] at isPart
      split at isPart
      · rcases List.mem_cons.1 isPart with rfl | later
        · simp
        · exact ih later
      · rename_i other
        cases parted : rest.splitOn a with
        | nil => exact absurd parted (List.splitOn_ne_nil a rest)
        | cons first others =>
            rw [parted, List.modifyHead_cons] at isPart
            rcases List.mem_cons.1 isPart with rfl | later
            · have free : a ∉ first := ih (by simp [parted])
              intro inside
              rcases List.mem_cons.1 inside with rfl | later
              · exact other (beq_self_eq_true a)
              · exact free later
            · exact ih (by simp [parted, later])

namespace Definition

variable {tokens : List Token} {parts : List (List Token)} {fault : Fault} {line : List Char}

/-- Tokens that are no right-hand side but not empty are looked through for an equals sign. -/
theorem alternative_of_other (free : Token.bar ∉ tokens) (some_ : tokens ≠ [])
    (other : ∀ rhs : Rhs, tokens ≠ rhs.tokens) :
    alternative tokens = if .equals ∈ tokens then .error .unexpectedEquals
      else .error (.notNormalForm (" ".intercalate (tokens.map Token.render))) := by
  unfold alternative
  split
  · rename_i left right
    exact absurd rfl (other (.binary ⟨left⟩ ⟨right⟩))
  · rename_i word
    exact absurd rfl (other (.lexical word))
  · exact absurd rfl some_
  · simp [free]

theorem alternative_eq_error_iff (free : Token.bar ∉ tokens) :
    alternative tokens = .error fault ↔ AlternativeFault tokens fault := by
  constructor
  · intro h
    unfold alternative at h
    split at h
    · simp at h
    · rename_i word
      split at h
      · rename_i empty
        obtain rfl := Except.error.inj h
        obtain rfl : word = "" := by simpa using empty
        exact .emptyWord
      · split at h
        · rename_i blank
          obtain rfl := Except.error.inj h
          exact .blankInWord (List.any_eq_true.1 blank)
        · simp at h
    · obtain rfl := Except.error.inj h
      exact .emptyAlternative
    · rename_i notPair notWord some_
      split at h
      · rename_i inside
        obtain rfl := Except.error.inj h
        exact .unexpectedEquals (List.contains_iff_mem.1 inside)
      · rename_i noEquals
        rw [if_neg (by simpa using free)] at h
        obtain rfl := Except.error.inj h
        refine .notNormalForm some_ (by simpa using noEquals) ?_
        rintro (word | ⟨left, right⟩) same
        · exact notWord word same
        · exact notPair left.name right.name same
  · intro h
    cases h with
    | unexpectedEquals inside =>
        have other : ∀ rhs : Rhs, tokens ≠ rhs.tokens := by
          rintro rhs rfl
          cases rhs <;> simp [Rhs.tokens] at inside
        rw [alternative_of_other free (List.ne_nil_of_mem inside) other, if_pos inside]
    | emptyAlternative => rfl
    | emptyWord => rfl
    | blankInWord blank =>
        rename_i word
        have nonempty : word.isEmpty = false := by
          obtain ⟨c, inside, -⟩ := blank
          rw [String.isEmpty_eq_false_iff]
          rintro rfl
          simp at inside
        rw [alternative, if_neg (by simp [nonempty]), if_pos (List.any_eq_true.2 blank)]
    | notNormalForm some_ noEquals other =>
        rw [alternative_of_other free some_ other, if_neg noEquals]

/-- The fault of the alternatives is that of the first which has one. -/
theorem alternatives?_eq_error_iff :
    alternatives? parts = .error fault ↔
      ∃ (good : List Rhs) (bad : List Token) (others : List (List Token)),
        parts = good.map Rhs.tokens ++ bad :: others ∧ (∀ rhs ∈ good, rhs.IsChecked) ∧
          alternative bad = .error fault := by
  induction parts with
  | nil => simp [alternatives?]
  | cons part rest ih =>
      rw [alternatives?]
      cases read : alternative part with
      | error other =>
          constructor
          · intro h
            obtain rfl := Except.error.inj h
            exact ⟨[], part, rest, rfl, by simp, read⟩
          · rintro ⟨good, bad, others, parted, checked, faulty⟩
            cases good with
            | nil =>
                obtain ⟨rfl, rfl⟩ := List.cons.inj parted
                obtain rfl : other = fault := Except.error.inj (read.symm.trans faulty)
                rfl
            | cons rhs good =>
                obtain ⟨rfl, -⟩ := List.cons.inj parted
                have fine := alternative_eq_ok_iff.2 ⟨rfl, checked rhs (by simp)⟩
                rw [fine] at read
                cases read
      | ok rhs =>
          obtain ⟨rfl, isChecked⟩ := alternative_eq_ok_iff.1 read
          have later : (alternatives? rest).map (rhs :: ·) = .error fault ↔
              alternatives? rest = .error fault := by
            cases alternatives? rest <;> simp [Except.map]
          simp only [later, ih]
          constructor
          · rintro ⟨good, bad, others, rfl, checked, faulty⟩
            exact ⟨rhs :: good, bad, others, rfl, List.forall_mem_cons.2 ⟨isChecked, checked⟩,
              faulty⟩
          · rintro ⟨good, bad, others, parted, checked, faulty⟩
            cases good with
            | nil =>
                obtain ⟨rfl, rfl⟩ := List.cons.inj parted
                rw [read] at faulty
                cases faulty
            | cons other good =>
                obtain ⟨-, rfl⟩ := List.cons.inj parted
                exact ⟨good, bad, others, rfl, (List.forall_mem_cons.1 checked).2, faulty⟩

end Definition

/-! ## Lines -/

/-- What is wrong with the tokens of a line. -/
inductive TokensFault : List Token → Fault → Prop
  | missingNonterminal {token : Token} {tokens : List Token} : (∀ text, token ≠ .name text) →
      TokensFault (token :: tokens) .missingNonterminal
  | missingEquals {text : String} {tokens : List Token} : tokens.head? ≠ some .equals →
      TokensFault (.name text :: tokens) .missingEquals
  /-- The alternatives before the bad one are good. -/
  | alternative {text : String} {good : List Rhs} {bad : List Token} {others : List (List Token)}
      {fault : Fault} : (∀ rhs ∈ good, rhs.IsChecked) → (∀ part ∈ bad :: others, .bar ∉ part) →
      AlternativeFault bad fault →
      TokensFault (.name text :: .equals ::
        [Token.bar].intercalate (good.map Rhs.tokens ++ bad :: others)) fault

/-- What is wrong with a line that speaks. -/
inductive LineFault (line : List Char) : Fault → Prop
  | unmatchedQuote : line.count '"' % 2 = 1 → LineFault line .unmatchedQuote
  | tokens {tokens : List Token} {fault : Fault} : Token.Spells line tokens →
      TokensFault tokens fault → LineFault line fault

namespace Definition

variable {tokens : List Token} {fault : Fault} {line : List Char}

theorem ofTokens_eq_error_iff (some_ : tokens ≠ []) :
    ofTokens tokens = .error fault ↔ TokensFault tokens fault := by
  constructor
  · intro h
    unfold ofTokens at h
    split at h
    · exact absurd rfl some_
    · rename_i text body
      have faulty : alternatives? (body.splitOn .bar) = .error fault := by
        cases read : alternatives? (body.splitOn .bar) <;> simp_all [Except.map]
      obtain ⟨good, bad, others, parted, checked, isFault⟩ := alternatives?_eq_error_iff.1 faulty
      have free : ∀ part ∈ bad :: others, Token.bar ∉ part := fun part isPart =>
        not_mem_of_mem_splitOn (parted ▸ List.mem_append_right _ isPart)
      have joined : [Token.bar].intercalate (body.splitOn .bar) = body :=
        List.intercalate_splitOn Token.bar
      rw [← joined, parted]
      exact .alternative checked free ((alternative_eq_error_iff (free bad (by simp))).1 isFault)
    · rename_i text rest noEquals
      obtain rfl := Except.error.inj h
      refine .missingEquals fun opening => ?_
      obtain ⟨body, rfl⟩ := List.head?_eq_some_iff.1 opening
      exact noEquals body rfl
    · rename_i notEmpty notRule notName
      obtain rfl := Except.error.inj h
      cases tokens with
      | nil => exact absurd rfl some_
      | cons token rest =>
          refine .missingNonterminal ?_
          rintro text rfl
          exact notName text rest rfl
  · intro h
    cases h with
    | missingNonterminal notName =>
        rename_i token rest
        cases token with
        | name text => exact absurd rfl (notName text)
        | _ => rfl
    | missingEquals noEquals =>
        rename_i text rest
        cases rest with
        | nil => rfl
        | cons token rest =>
            cases token with
            | equals => exact absurd rfl noEquals
            | _ => rfl
    | alternative checked free isFault =>
        rename_i text good bad others
        have freeGood : ∀ part ∈ good.map Rhs.tokens ++ bad :: others, Token.bar ∉ part := by
          intro part isPart
          rcases List.mem_append.1 isPart with isGood | isOther
          · obtain ⟨rhs, -, rfl⟩ := List.mem_map.1 isGood
            exact rhs.bar_not_mem_tokens
          · exact free part isOther
        have faulty := alternatives?_eq_error_iff.2 ⟨good, bad, others, rfl, checked,
          (alternative_eq_error_iff (free bad (by simp))).2 isFault⟩
        rw [ofTokens, List.splitOn_intercalate _ freeGood (by simp), faulty]
        rfl

/-- **The fault that is reported is the one that the line has.** -/
theorem ofText_eq_error_iff (spoken : ¬ Blanks line) :
    ofText line = .error fault ↔ LineFault line fault := by
  unfold ofText
  cases scanned : Token.scan line with
  | none =>
      have odd := Token.scan_eq_none_iff.1 scanned
      constructor
      · intro h
        obtain rfl := Except.error.inj h
        exact .unmatchedQuote odd
      · intro h
        cases h with
        | unmatchedQuote => rfl
        | tokens spelled =>
            rw [spelled.scan_eq] at scanned
            cases scanned
  | some tokens =>
      have spelled := Token.scan_eq_some_iff.1 scanned
      have some_ : tokens ≠ [] := by
        rintro rfl
        exact spoken (Token.spells_nil_iff.1 spelled)
      simp only [ofTokens_eq_error_iff some_]
      constructor
      · exact .tokens spelled
      · intro h
        cases h with
        | unmatchedQuote odd =>
            rw [Token.scan_eq_none_iff.2 odd] at scanned
            cases scanned
        | tokens other isFault =>
            rwa [spelled.unique other]

end Definition

end PhraseChart
