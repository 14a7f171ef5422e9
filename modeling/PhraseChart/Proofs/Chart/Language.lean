/-
# PhraseChart.Proofs.Chart.Language -- a chart decides what a grammar derives

The roots of a chart are the derivations of the whole sentence, so what is read off
them can be said without a chart:

* `trees_ofTokens`, `parses_ofTokens`: the readers of the roots, in terms of the list
  of derivations;
* `mem_parses_iff`, `nodup_parses`: the parses of a symbol are the derivation trees of
  the sentence with that root, each once.

`parse_derives_iff` is the statement about the rewriting relation: a symbol derives
the sentence just when the symbol can be rewritten into its words, and it has as many
parses as there are leftmost derivations.  Forms keep words and nonterminals apart,
so a word that is spelled like a nonterminal is never rewritten.
-/
import Mathlib.Data.Set.Card
import PhraseChart.Proofs.Chart.Filling
import PhraseChart.Proofs.Grammar.Leftmost

namespace PhraseChart

set_option autoImplicit false

namespace Chart

variable {rules : RuleSet} {tokens : List Word} {c : Chart} {symbol : Nonterminal}

/-! ## Reading the roots -/

theorem hasLabel_eq {id : NodeId} {tree : Tree} (h : c.tree? id = some tree) :
    c.hasLabel symbol id = decide (tree.label = symbol) := by
  obtain ⟨node, found, label⟩ := Forest.exists_get?_of_tree? h
  rw [hasLabel, node?, found, Option.any_some, label]
  rfl

/-- Ids that all expand are expanded by skipping those that do not. -/
theorem filterMap_eq_of_map_eq {α β : Type} {l : List α} {m : List β} {f : α → Option β}
    (h : l.map f = m.map some) : l.filterMap f = m := by
  calc l.filterMap f
      = (l.map f).filterMap id := by
        rw [List.filterMap_map]
        rfl
    _ = m := by
        rw [h, List.filterMap_map]
        exact List.filterMap_some

/-- Selecting ids and expanding them is expanding them and selecting the trees. -/
theorem map_tree?_filter {ids : List NodeId} {trees : List Tree}
    (h : ids.map c.tree? = trees.map some) :
    (ids.filter (c.hasLabel symbol)).map c.tree? =
      (trees.filter fun tree => tree.label = symbol).map some := by
  induction ids generalizing trees with
  | nil =>
      obtain rfl : trees = [] := by simpa using h.symm
      rfl
  | cons id ids ih =>
      cases trees with
      | nil => simp at h
      | cons tree trees =>
          simp only [List.map_cons, List.cons.injEq] at h
          obtain ⟨expanded, rest⟩ := h
          by_cases selected : tree.label = symbol
          · rw [List.filter_cons_of_pos (by rw [hasLabel_eq expanded, decide_eq_true selected]),
              List.filter_cons_of_pos (by simpa using selected), List.map_cons, List.map_cons,
              expanded, ih rest]
          · rw [List.filter_cons_of_neg (by simpa [hasLabel_eq expanded] using selected),
              List.filter_cons_of_neg (by simpa using selected), ih rest]

section Sentence

variable (words : tokens ≠ [])

include words

theorem last_lt : tokens.length - 1 < tokens.length :=
  Nat.sub_lt (List.length_pos_iff.2 words) Nat.one_pos

theorem wordsOf_sentence : wordsOf tokens 0 (tokens.length - 1) = tokens := by
  have inside := last_lt words
  rw [wordsOf, List.drop_zero, show tokens.length - 1 + 1 - 0 = tokens.length by omega,
    List.take_length]

theorem map_tree?_roots :
    (ofTokens rules tokens).roots.map (ofTokens rules tokens).tree? =
      (derivations rules tokens 0 (tokens.length - 1)).map some := by
  rw [roots, size, tokens_ofTokens]
  exact map_tree?_ids (Nat.zero_le _) (last_lt words)

theorem trees_ofTokens :
    (ofTokens rules tokens).trees = derivations rules tokens 0 (tokens.length - 1) :=
  filterMap_eq_of_map_eq (map_tree?_roots words)

theorem parses_ofTokens :
    (ofTokens rules tokens).parses symbol =
      (derivations rules tokens 0 (tokens.length - 1)).filter fun tree => tree.label = symbol :=
  filterMap_eq_of_map_eq (map_tree?_filter (map_tree?_roots words))

/-- A symbol derives the sentence when it has a parse. -/
theorem derives_iff_exists_parse :
    (ofTokens rules tokens).derives symbol = true ↔
      ∃ tree, tree ∈ (ofTokens rules tokens).parses symbol := by
  rw [derives, List.any_eq_true]
  constructor
  · rintro ⟨id, isRoot, labelled⟩
    have selected := List.mem_filter.2 ⟨isRoot, labelled⟩
    have expanded := List.mem_map_of_mem (f := (ofTokens rules tokens).tree?) selected
    rw [map_tree?_filter (map_tree?_roots words)] at expanded
    obtain ⟨tree, _, same⟩ := List.mem_map.1 expanded
    exact ⟨tree, List.mem_filterMap.2 ⟨id, selected, same.symm⟩⟩
  · rintro ⟨tree, member⟩
    obtain ⟨id, selected, _⟩ := List.mem_filterMap.1 member
    exact ⟨id, List.mem_filter.1 selected⟩

theorem mem_parses_iff (indexed : rules.Indexed) {tree : Tree} :
    tree ∈ (ofTokens rules tokens).parses symbol ↔
      tree.label = symbol ∧ tree.words = tokens ∧ tree.IsDerivation rules := by
  rw [parses_ofTokens words, List.mem_filter, decide_eq_true_eq,
    mem_derivations_iff indexed (Nat.zero_le _) (last_lt words), wordsOf_sentence words]
  exact and_comm

theorem nodup_parses (indexed : rules.Indexed) : ((ofTokens rules tokens).parses symbol).Nodup := by
  rw [parses_ofTokens words]
  exact (nodup_derivations indexed (Nat.zero_le _) (last_lt words)).filter _

theorem derives_iff_exists_tree (indexed : rules.Indexed) :
    (ofTokens rules tokens).derives symbol = true ↔
      ∃ tree : Tree, tree.label = symbol ∧ tree.words = tokens ∧ tree.IsDerivation rules := by
  simp only [derives_iff_exists_parse words, mem_parses_iff words indexed]

end Sentence

end Chart

/-! ## Rewriting -/

/-- The leftmost derivations of a sentence are the steps of its parses. -/
theorem leftmostRuns_eq_image {rules : RuleSet} (indexed : rules.Indexed) {tokens : List Word}
    (words : tokens ≠ []) (symbol : Nonterminal) :
    {steps | LeftmostRun rules steps [.nonterminal symbol] (tokens.map .word)} =
      Tree.steps '' {tree | tree ∈ (Chart.ofTokens rules tokens).parses symbol} := by
  ext steps
  simp only [Set.mem_ofPred_eq, Set.mem_image, ← leftmostDerivation_iff_run,
    leftmost_iff_exists_tree, Chart.mem_parses_iff words indexed, and_assoc]

/-- **A chart answers the question of the rewriting relation, and counts.**  A symbol derives
the sentence in the chart just when rewriting leads from the symbol to the words, and its
parses are as many as the sequences of rules that lead there leftmost. -/
theorem parse_derives_iff (inserted : List Rule) (tokens : List Word) (words : tokens ≠ []) :
    ∃ c, Chart.parse (.ofList inserted) tokens = .ok c ∧
      ∀ symbol,
        (c.derives symbol = true ↔
          Derives (.ofList inserted) [.nonterminal symbol] (tokens.map .word)) ∧
        {steps | LeftmostRun (.ofList inserted) steps [.nonterminal symbol]
          (tokens.map .word)}.encard = (c.parses symbol).length := by
  have indexed := RuleSet.indexed_ofList inserted
  refine ⟨_, Chart.parse_of_ne_nil words, fun symbol => ⟨?_, ?_⟩⟩
  · rw [Chart.derives_iff_exists_tree words indexed, derives_iff_exists_leftmost]
    simp only [leftmost_iff_exists_tree]
    constructor
    · rintro ⟨tree, label, covered, follows⟩
      exact ⟨tree.steps, tree, label, covered, follows, rfl⟩
    · rintro ⟨_, tree, label, covered, follows, _⟩
      exact ⟨tree, label, covered, follows⟩
  · have listed : {tree | tree ∈ (Chart.ofTokens (.ofList inserted) tokens).parses symbol} =
        ((Chart.ofTokens (.ofList inserted) tokens).parses symbol).toFinset := by
      ext tree
      simp
    rw [leftmostRuns_eq_image indexed words, Tree.steps_injective.encard_image, listed,
      Set.encard_coe_eq_coe_finsetCard,
      List.toFinset_card_of_nodup (Chart.nodup_parses words indexed)]

/-- A word and a nonterminal are spelled alike. -/
def homonym : List Rule := [⟨⟨"S"⟩, .binary ⟨"a"⟩ ⟨"a"⟩⟩, ⟨⟨"a"⟩, .lexical "a"⟩]

theorem parse_derives_iff_homonym :
    ["a", "a"] ≠ [] ∧
      ∃ c, Chart.parse (.ofList homonym) ["a", "a"] = .ok c ∧ c.derives ⟨"S"⟩ = true ∧
        {steps | LeftmostRun (.ofList homonym) steps [.nonterminal ⟨"S"⟩]
          [.word "a", .word "a"]}.encard = (c.parses ⟨"S"⟩).length := by
  have words : ["a", "a"] ≠ [] := by decide
  obtain ⟨c, parsed, answers⟩ := parse_derives_iff homonym ["a", "a"] words
  obtain ⟨decides, counts⟩ := answers ⟨"S"⟩
  have follows : (Tree.branch ⟨"S"⟩ (.leaf ⟨"a"⟩ "a") (.leaf ⟨"a"⟩ "a")).IsDerivation
      (.ofList homonym) := by
    simp [Tree.IsDerivation, Tree.label, RuleSet.mem_toList_ofList, homonym]
  exact ⟨words, c, parsed, decides.2 (Tree.leftmost_steps follows).derives, counts⟩

end PhraseChart
