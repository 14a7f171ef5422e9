/-
# PhraseChart.Proofs.Chart.Lexicon -- the words that a chart knows

A word is unknown when no rule rewrites to it.  A chart reads this off its shortest cells,
and `unknownWords_ofTokens` says it without a chart.

Every word of a derivation follows a lexical rule (`Tree.IsDerivation.exists_lexical`), so a
sentence with a parse has no unknown word (`unknownWords_eq_nil`), and no phrase reaches over one:
the cells of all spans that hold an unknown word are empty (`ids_eq_nil_of_unknown`).
`parse_unknownWords` is the statement for whole charts.
-/
import PhraseChart.Proofs.Chart.Exactness
import PhraseChart.Proofs.Chart.Language

namespace PhraseChart

set_option autoImplicit false

variable {rules : RuleSet} {tokens : List Word} {word : Word} {position first last : Nat}

/-- Every word at a leaf of a derivation follows a lexical rule. -/
theorem Tree.IsDerivation.exists_lexical {tree : Tree} (h : tree.IsDerivation rules)
    (member : word ∈ tree.words) : ∃ label, ⟨label, .lexical word⟩ ∈ rules.toList := by
  induction tree with
  | leaf label word' =>
      obtain rfl : word = word' := by simpa [Tree.words] using member
      exact ⟨label, h⟩
  | branch label left right ihLeft ihRight =>
      obtain ⟨-, leftFollows, rightFollows⟩ := h
      rcases List.mem_append.1 member with onTheLeft | onTheRight
      · exact ihLeft leftFollows onTheLeft
      · exact ihRight rightFollows onTheRight

/-- Nothing rewrites to a right-hand side just when no rule has it. -/
theorem RuleSet.Indexed.heads_eq_nil_iff (indexed : rules.Indexed) {rhs : Rhs} :
    rules.heads rhs = [] ↔ ∀ rule ∈ rules.toList, rule.rhs ≠ rhs := by
  rw [List.eq_nil_iff_forall_not_mem]
  constructor
  · rintro none rule isRule rfl
    exact none rule.lhs (indexed.mem_heads.2 isRule)
  · intro none label isHead
    exact none ⟨label, rhs⟩ (indexed.mem_heads.1 isHead) rfl

namespace Chart

/-- The cell of one word has a derivation for each nonterminal that rewrites to the word. -/
theorem isEmpty_ids_self (found : tokens[position]? = some word) :
    ((ofTokens rules tokens).ids position position).isEmpty =
      (rules.heads (.lexical word)).isEmpty := by
  have inside := (List.getElem?_eq_some_iff.1 found).1
  have expanded := congrArg List.length
    (@map_tree?_ids rules tokens position position (Nat.le_refl position) inside)
  rw [derivations_self, wordTrees, found] at expanded
  simp only [List.length_map] at expanded
  rw [Bool.eq_iff_iff, List.isEmpty_iff_length_eq_zero, List.isEmpty_iff_length_eq_zero, expanded]

/-- The unknown words are those that no rule rewrites to. -/
theorem unknownWords_ofTokens (rules : RuleSet) (tokens : List Word) :
    (ofTokens rules tokens).unknownWords =
      (tokens.zipIdx.filter fun (word, _) => (rules.heads (.lexical word)).isEmpty).map
        fun (word, position) => (position, word) := by
  rw [unknownWords, tokens_ofTokens]
  congr 1
  apply List.filter_congr
  rintro ⟨word, position⟩ member
  exact isEmpty_ids_self (List.mem_zipIdx_iff_getElem?.1 member)

/-- A sentence with a parse has no unknown word. -/
theorem unknownWords_eq_nil (indexed : rules.Indexed) {tree : Tree}
    (follows : tree.IsDerivation rules) : (ofTokens rules tree.words).unknownWords = [] := by
  rw [unknownWords_ofTokens, List.map_eq_nil_iff, List.filter_eq_nil_iff]
  rintro ⟨word, position⟩ member
  have isWord : word ∈ tree.words := List.fst_mem_of_mem_zipIdx member
  obtain ⟨label, isRule⟩ := follows.exists_lexical isWord
  have isHead := indexed.mem_heads.2 isRule
  simpa using List.ne_nil_of_mem isHead

/-! ## Spans over an unknown word -/

theorem mem_unknownWords_iff :
    (position, word) ∈ (ofTokens rules tokens).unknownWords ↔
      tokens[position]? = some word ∧ rules.heads (.lexical word) = [] := by
  rw [unknownWords_ofTokens]
  simp [List.mem_zipIdx_iff_getElem?]

/-- A span holds the words at its positions. -/
theorem mem_wordsOf (found : tokens[position]? = some word) (low : first ≤ position)
    (high : position ≤ last) : word ∈ wordsOf tokens first last := by
  apply List.mem_of_getElem? (i := position - first)
  rw [wordsOf, List.getElem?_take_of_lt (by omega), List.getElem?_drop,
    show first + (position - first) = position by omega, found]

/-- **No phrase reaches over an unknown word.** -/
theorem ids_eq_nil_of_unknown (indexed : rules.Indexed) (found : tokens[position]? = some word)
    (unknown : rules.heads (.lexical word) = []) (low : first ≤ position) (high : position ≤ last)
    (inside : last < tokens.length) : (ofTokens rules tokens).ids first last = [] := by
  have none : derivations rules tokens first last = [] := by
    rw [List.eq_nil_iff_forall_not_mem]
    intro tree member
    obtain ⟨covered, follows⟩ := (mem_derivations_iff indexed (by omega) inside).1 member
    obtain ⟨label, isRule⟩ := follows.exists_lexical (covered ▸ mem_wordsOf found low high)
    have isHead := indexed.mem_heads.2 isRule
    simp [unknown] at isHead
  have expanded := @map_tree?_ids rules tokens first last (by omega) inside
  rw [none] at expanded
  simpa using expanded

/-- The cell over one position is empty just when the position is reported. -/
theorem mem_map_fst_unknownWords_iff (found : tokens[position]? = some word) :
    position ∈ (ofTokens rules tokens).unknownWords.map Prod.fst ↔
      rules.heads (.lexical word) = [] := by
  constructor
  · intro reported
    obtain ⟨⟨_, word'⟩, member, rfl⟩ := List.mem_map.1 reported
    obtain ⟨found', unknown⟩ := mem_unknownWords_iff.1 member
    cases found.symm.trans found'
    exact unknown
  · intro unknown
    exact List.mem_map.2 ⟨(position, word), mem_unknownWords_iff.2 ⟨found, unknown⟩, rfl⟩

/-- Unknown words are reported from left to right. -/
theorem pairwise_map_fst_unknownWords (c : Chart) :
    (c.unknownWords.map Prod.fst).Pairwise (· < ·) := by
  have numbered : c.tokens.zipIdx.Pairwise fun one two => one.2 < two.2 := by
    rw [← List.pairwise_map, List.zipIdx_map_snd]
    exact List.pairwise_lt_range'
  rw [unknownWords, List.map_map, List.pairwise_map]
  exact numbered.filter _

/-- With an unknown word there is no derivation of the whole sentence. -/
theorem roots_eq_nil_of_unknown (indexed : rules.Indexed)
    (some_ : (ofTokens rules tokens).unknownWords ≠ []) : (ofTokens rules tokens).roots = [] := by
  obtain ⟨⟨position, word⟩, member⟩ := List.exists_mem_of_ne_nil _ some_
  obtain ⟨found, unknown⟩ := mem_unknownWords_iff.1 member
  have inside := (List.getElem?_eq_some_iff.1 found).1
  rw [roots, size, tokens_ofTokens]
  exact ids_eq_nil_of_unknown indexed found unknown (Nat.zero_le _) (by omega) (by omega)

end Chart

/-- **A chart reports the words that no rule rewrites to, and nothing is derived over them.**  A
position is reported just when no rule has its word as right-hand side, and just when every cell over
it is empty.  The report goes from left to right and gives each position with its word, and where it
is not empty the sentence has no derivation at all. -/
theorem parse_unknownWords (inserted : List Rule) (tokens : List Word) (words : tokens ≠ []) :
    ∃ c, Chart.parse (.ofList inserted) tokens = .ok c ∧
      (∀ (position : Nat) (inside : position < tokens.length),
        (position ∈ c.unknownWords.map Prod.fst ↔
          ∀ rule ∈ (RuleSet.ofList inserted).toList, rule.rhs ≠ .lexical tokens[position]) ∧
        (position ∈ c.unknownWords.map Prod.fst ↔
          ∀ first last, first ≤ position → position ≤ last → last < tokens.length →
            c.cell? first last = some [])) ∧
      (c.unknownWords.map Prod.fst).Pairwise (· < ·) ∧
      (∀ entry ∈ c.unknownWords, tokens[entry.1]? = some entry.2) ∧
      (c.unknownWords ≠ [] →
        c.roots = [] ∧ (∀ symbol, c.derives symbol = false) ∧ c.trees = []) := by
  have indexed := RuleSet.indexed_ofList inserted
  refine ⟨_, Chart.parse_of_ne_nil words, fun position inside => ?_,
    Chart.pairwise_map_fst_unknownWords _, fun entry member => ?_, fun some_ => ?_⟩
  · have found : tokens[position]? = some tokens[position] := List.getElem?_eq_getElem inside
    rw [Chart.mem_map_fst_unknownWords_iff found]
    refine ⟨indexed.heads_eq_nil_iff, fun unknown first last low high within => ?_, fun empty => ?_⟩
    · rw [Chart.cell?_ofTokens (by omega) within,
        Chart.ids_eq_nil_of_unknown indexed found unknown low high within]
    · have here := empty position position (Nat.le_refl _) (Nat.le_refl _) inside
      rw [Chart.cell?_ofTokens (Nat.le_refl _) inside, Option.some.injEq] at here
      have none := @Chart.isEmpty_ids_self (.ofList inserted) tokens _ _ found
      rw [here] at none
      exact List.isEmpty_iff.1 none.symm
  · exact (Chart.mem_unknownWords_iff.1 member).1
  · have roots := Chart.roots_eq_nil_of_unknown indexed some_
    refine ⟨roots, fun symbol => ?_, ?_⟩
    · rw [Chart.derives, roots, List.any_nil]
    · rw [Chart.trees, roots, List.filterMap_nil]

/-- One word that is not in the lexicon separates two that are. -/
theorem parse_unknownWords_pairing :
    ["a", "b", "a"] ≠ [] ∧
      ∃ c, Chart.parse (.ofList pairing) ["a", "b", "a"] = .ok c ∧
        1 ∈ c.unknownWords.map Prod.fst ∧ 0 ∉ c.unknownWords.map Prod.fst ∧
        c.cell? 0 1 = some [] ∧ c.cell? 1 2 = some [] ∧ c.unknownWords ≠ [] ∧
        c.derives ⟨"S"⟩ = false ∧ c.trees = [] := by
  have words : ["a", "b", "a"] ≠ [] := by decide
  obtain ⟨c, parsed, reports, -, -, blocks⟩ := parse_unknownWords pairing ["a", "b", "a"] words
  have unknown : 1 ∈ c.unknownWords.map Prod.fst := by
    rw [(reports 1 (by decide)).1, RuleSet.toList_ofList]
    decide
  have known : 0 ∉ c.unknownWords.map Prod.fst := by
    rw [(reports 0 (by decide)).1, RuleSet.toList_ofList]
    decide
  have some_ : c.unknownWords ≠ [] := fun none => by simp [none] at unknown
  obtain ⟨-, derives, trees⟩ := blocks some_
  have cells := (reports 1 (by decide)).2.1 unknown
  exact ⟨words, c, parsed, unknown, known, cells 0 1 (by decide) (by decide) (by decide),
    cells 1 2 (by decide) (by decide) (by decide), some_, derives _, trees⟩

end PhraseChart
