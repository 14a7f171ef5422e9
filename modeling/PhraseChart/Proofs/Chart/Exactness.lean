/-
# PhraseChart.Proofs.Chart.Exactness -- what the cells of a chart hold

Two descriptions of the trees in a cell, both for every sentence and every span:

* `parse_cells_eq_derivations`: the trees are those that the recursion without a table
  and without shared nodes lists, in its order;
* `parse_cells_exact`: over a rule set built by insertions they are the derivation
  trees of the words of the span, each once.

The second does not depend on the order of registration, so rule sets with the same
rules have the same derivations (`derivations_perm`) and give charts with the same trees
(`Chart.sameTrees_of_perm`).
-/
import PhraseChart.Proofs.Chart.Filling

namespace PhraseChart

set_option autoImplicit false

/-- **A chart lists what the plain recursion lists, in the same order.**  The recursion is
written out: leaves by the heads of a word; else by splits from left to right, then by left
parts, by right parts and by the heads of their labels. -/
theorem parse_cells_eq_derivations (rules : RuleSet) (tokens : List Word) (words : tokens ≠ []) :
    (∃ c, Chart.parse rules tokens = .ok c ∧
      ∀ first last, first ≤ last → last < tokens.length →
        ∃ ids, c.cell? first last = some ids ∧
          ids.map c.tree? = (derivations rules tokens first last).map some) ∧
    (∀ position word, tokens[position]? = some word →
      derivations rules tokens position position =
        (rules.headsOfNames [word]).map fun label => .leaf label word) ∧
    (∀ first last, first < last →
      derivations rules tokens first last =
        (List.range' first (last - first)).flatMap fun split =>
          (derivations rules tokens first split).flatMap fun left =>
            (derivations rules tokens (split + 1) last).flatMap fun right =>
              (rules.heads (.binary left.label right.label)).map fun label =>
                .branch label left right) := by
  refine ⟨⟨_, Chart.parse_of_ne_nil words, ?_⟩, ?_, ?_⟩
  · intro first last ordered inside
    exact ⟨_, Chart.cell?_ofTokens ordered inside, Chart.map_tree?_ids ordered inside⟩
  · intro position word found
    rw [derivations_self, wordTrees, found]
    rfl
  · intro first last longer
    exact derivations_of_lt longer

/-- An ambiguous rule set: a pair of sentences is a sentence. -/
def pairing : List Rule :=
  [⟨⟨"S"⟩, .binary ⟨"S"⟩ ⟨"S"⟩⟩, ⟨⟨"S"⟩, .lexical "a"⟩]

/-- The span of three words is split after the first word first. -/
theorem parse_cells_eq_derivations_pairing :
    ["a", "a", "a"] ≠ [] ∧
      ∃ c, Chart.parse (.ofList pairing) ["a", "a", "a"] = .ok c ∧
        ∃ ids, c.cell? 0 2 = some ids ∧
          ids.map c.tree? = (derivations (.ofList pairing) ["a", "a", "a"] 0 2).map some := by
  have words : ["a", "a", "a"] ≠ [] := by decide
  obtain ⟨⟨c, parsed, cells⟩, -, -⟩ := parse_cells_eq_derivations (.ofList pairing) _ words
  exact ⟨words, c, parsed, cells 0 2 (by decide) (by decide)⟩

/-- **The cells of a chart are exact.**  Every id of a cell expands to a tree, no tree stands
twice in a cell, and a tree stands there just when its leaves are the words of the span and
each of its nodes follows a rule. -/
theorem parse_cells_exact (inserted : List Rule) (tokens : List Word) (words : tokens ≠ []) :
    ∃ c, Chart.parse (.ofList inserted) tokens = .ok c ∧
      ∀ first last, first ≤ last → last < tokens.length →
        ∃ (ids : List NodeId) (trees : List Tree),
          c.cell? first last = some ids ∧ ids.map c.tree? = trees.map some ∧ trees.Nodup ∧
          ∀ tree, tree ∈ trees ↔
            tree.words = (tokens.drop first).take (last + 1 - first) ∧
              tree.IsDerivation (.ofList inserted) := by
  refine ⟨_, Chart.parse_of_ne_nil words, ?_⟩
  intro first last ordered inside
  have indexed := RuleSet.indexed_ofList inserted
  exact ⟨_, _, Chart.cell?_ofTokens ordered inside, Chart.map_tree?_ids ordered inside,
    nodup_derivations indexed ordered inside,
    fun tree => mem_derivations_iff indexed ordered inside⟩

/-- Both ways to pair three words stand in the cell of the whole sentence. -/
theorem parse_cells_exact_pairing :
    ["a", "a", "a"] ≠ [] ∧
      ∃ (c : Chart) (ids : List NodeId) (trees : List Tree),
        Chart.parse (.ofList pairing) ["a", "a", "a"] = .ok c ∧ c.cell? 0 2 = some ids ∧
        ids.map c.tree? = trees.map some ∧ trees.Nodup ∧
        .branch ⟨"S"⟩ (.leaf ⟨"S"⟩ "a") (.branch ⟨"S"⟩ (.leaf ⟨"S"⟩ "a") (.leaf ⟨"S"⟩ "a")) ∈ trees ∧
        .branch ⟨"S"⟩ (.branch ⟨"S"⟩ (.leaf ⟨"S"⟩ "a") (.leaf ⟨"S"⟩ "a")) (.leaf ⟨"S"⟩ "a") ∈ trees ∧
        Tree.leaf ⟨"S"⟩ "a" ∉ trees := by
  have words : ["a", "a", "a"] ≠ [] := by decide
  obtain ⟨c, parsed, cells⟩ := parse_cells_exact pairing ["a", "a", "a"] words
  obtain ⟨ids, trees, found, expanded, distinct, members⟩ := cells 0 2 (by decide) (by decide)
  refine ⟨words, c, ids, trees, parsed, found, expanded, distinct, ?_, ?_, ?_⟩
  · rw [members]
    simp [Tree.words, Tree.IsDerivation, Tree.label, RuleSet.mem_toList_ofList, pairing]
  · rw [members]
    simp [Tree.words, Tree.IsDerivation, Tree.label, RuleSet.mem_toList_ofList, pairing]
  · rw [members]
    simp [Tree.words]

/-! ## Rules in another order -/

/-- Two charts of one sentence hold the same trees in each cell, up to their order. -/
def Chart.SameTrees (c d : Chart) : Prop :=
  c.tokens = d.tokens ∧
    ∀ first last, first ≤ last → last < c.tokens.length →
      ∃ (ids others : List NodeId) (trees reordered : List Tree),
        c.cell? first last = some ids ∧ ids.map c.tree? = trees.map some ∧
        d.cell? first last = some others ∧ others.map d.tree? = reordered.map some ∧
        trees.Perm reordered

variable {rules others : RuleSet}

theorem Tree.isDerivation_congr (same : ∀ rule, rule ∈ rules.toList ↔ rule ∈ others.toList)
    (tree : Tree) : tree.IsDerivation rules ↔ tree.IsDerivation others := by
  induction tree with
  | leaf label word => exact same _
  | branch label left right ihLeft ihRight =>
      simp only [Tree.IsDerivation, same, ihLeft, ihRight]

/-- **The order in which rules are registered only reorders the derivations of a span.** -/
theorem derivations_perm (indexed : rules.Indexed) (indexed' : others.Indexed)
    (same : rules.toList.Perm others.toList) {tokens : List Word} {first last : Nat}
    (ordered : first ≤ last) (inside : last < tokens.length) :
    (derivations rules tokens first last).Perm (derivations others tokens first last) := by
  refine (List.perm_ext_iff_of_nodup (nodup_derivations indexed ordered inside)
    (nodup_derivations indexed' ordered inside)).2 fun tree => ?_
  rw [mem_derivations_iff indexed ordered inside, mem_derivations_iff indexed' ordered inside,
    tree.isDerivation_congr fun _ => same.mem_iff]

theorem Chart.sameTrees_of_perm (indexed : rules.Indexed) (indexed' : others.Indexed)
    (same : rules.toList.Perm others.toList) (tokens : List Word) :
    (ofTokens rules tokens).SameTrees (ofTokens others tokens) := by
  refine ⟨by rw [tokens_ofTokens, tokens_ofTokens], ?_⟩
  intro first last ordered inside
  rw [tokens_ofTokens] at inside
  exact ⟨_, _, _, _, cell?_ofTokens ordered inside, map_tree?_ids ordered inside,
    cell?_ofTokens ordered inside, map_tree?_ids ordered inside,
    derivations_perm indexed indexed' same ordered inside⟩

end PhraseChart
