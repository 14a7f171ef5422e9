/-
# PhraseChart.Proofs.Chart.Locality -- a cell depends on the words of its span

Two charts of different sentences share nothing but the rules: they have cells at other places,
nodes under other ids, and nodes of other spans between them.  Still the cell of a span expands to
the trees of its words, so the recursion `derivations` is the place to compare them.  It looks at no
word outside of a span, and at no position but through the words found there
(`derivationsOver_congr`).

`parse_slice` is the statement for charts: a block of words has the same trees in the same order in
every sentence that holds it, and they are the trees of the block alone.
-/
import PhraseChart.Proofs.Chart.Exactness
import PhraseChart.Proofs.Chart.Language

namespace PhraseChart

set_option autoImplicit false

variable {rules : RuleSet} {tokens others block : List Word} {first last start extent : Nat}

/-! ## Derivations -/

/-- **Spans with the same words have the same derivations**, whatever surrounds them. -/
theorem derivationsOver_congr
    (same : ∀ offset, offset ≤ extent → tokens[first + offset]? = others[start + offset]?) :
    derivationsOver rules tokens first extent = derivationsOver rules others start extent := by
  induction extent using Nat.strongRecOn generalizing first start with
  | _ extent ih =>
      cases extent with
      | zero =>
          have word : tokens[first]? = others[start]? := same 0 (Nat.le_refl 0)
          rw [derivationsOver, derivationsOver, wordTrees, wordTrees, word]
      | succ extent =>
          rw [derivationsOver, derivationsOver]
          apply List.flatMap_congr
          intro split _
          have lefts : derivationsOver rules tokens first split.val =
              derivationsOver rules others start split.val :=
            ih split.val (by omega) fun offset inside => same offset (by omega)
          have rights : derivationsOver rules tokens (first + split.val + 1) (extent - split.val) =
              derivationsOver rules others (start + split.val + 1) (extent - split.val) := by
            refine ih (extent - split.val) (by omega) fun offset inside => ?_
            have beyond := same (split.val + 1 + offset) (by omega)
            rwa [← Nat.add_assoc, ← Nat.add_assoc, ← Nat.add_assoc, ← Nat.add_assoc] at beyond
          rw [lefts, rights]

/-- The derivations of a span are those of a sentence that ends where the span does. -/
theorem derivations_wordsOf (ordered : first ≤ last) :
    derivations rules (wordsOf tokens first last) 0 (last - first) =
      derivations rules tokens first last := by
  rw [derivations, derivations, Nat.sub_zero]
  apply derivationsOver_congr
  intro offset inside
  rw [wordsOf, Nat.zero_add, List.getElem?_take_of_lt (by omega), List.getElem?_drop]

/-! ## Charts -/

/-- The trees of a cell are the trees of a sentence that its words make up alone. -/
theorem Chart.map_tree?_ids_slice (ordered : first ≤ last) (inside : last < tokens.length) :
    ((ofTokens rules tokens).ids first last).map (ofTokens rules tokens).tree? =
      (ofTokens rules (wordsOf tokens first last)).trees.map some := by
  have extent : (wordsOf tokens first last).length = last + 1 - first := length_wordsOf inside
  have words : wordsOf tokens first last ≠ [] := List.length_pos_iff.1 (by omega)
  rw [map_tree?_ids ordered inside, trees_ofTokens words, extent,
    show last + 1 - first - 1 = last - first by omega, derivations_wordsOf ordered]

section Block

variable (before after : List Word) (words : block ≠ [])

include words

theorem block_inside :
    before.length + (block.length - 1) < (before ++ block ++ after).length := by
  have positive := List.length_pos_iff.2 words
  rw [List.length_append, List.length_append]
  omega

theorem wordsOf_block :
    wordsOf (before ++ block ++ after) before.length (before.length + (block.length - 1)) =
      block := by
  have positive := List.length_pos_iff.2 words
  rw [wordsOf, List.append_assoc, List.drop_left,
    show before.length + (block.length - 1) + 1 - before.length = block.length by omega,
    List.take_left]

/-- The cell over a block of words, in a sentence that holds the block. -/
theorem Chart.exists_block (rules : RuleSet) :
    ∃ c ids, parse rules (before ++ block ++ after) = .ok c ∧
      c.cell? before.length (before.length + (block.length - 1)) = some ids ∧
      ids.map c.tree? = (ofTokens rules block).trees.map some := by
  have ordered := Nat.le_add_right before.length (block.length - 1)
  have inside := block_inside before after words
  refine ⟨_, _, parse_of_ne_nil (by simp [words]), cell?_ofTokens ordered inside, ?_⟩
  rw [map_tree?_ids_slice ordered inside, wordsOf_block before after words]

end Block

/-- **What surrounds a block of words does not matter to the cells over it.**  The trees of the cell
of a span are the trees of a parse of its words alone, in the same order; so a block that stands in
two sentences, at any two positions, has one list of trees. -/
theorem parse_slice (rules : RuleSet) :
    (∀ (tokens : List Word) (first last : Nat), first ≤ last → last < tokens.length →
      ∃ c d ids, Chart.parse rules tokens = .ok c ∧
        Chart.parse rules ((tokens.drop first).take (last + 1 - first)) = .ok d ∧
        c.cell? first last = some ids ∧ ids.map c.tree? = d.trees.map some) ∧
    ∀ before after before' after' block : List Word, block ≠ [] →
      ∃ c d ids others, Chart.parse rules (before ++ block ++ after) = .ok c ∧
        Chart.parse rules (before' ++ block ++ after') = .ok d ∧
        c.cell? before.length (before.length + (block.length - 1)) = some ids ∧
        d.cell? before'.length (before'.length + (block.length - 1)) = some others ∧
        ids.map c.tree? = others.map d.tree? := by
  constructor
  · intro tokens first last ordered inside
    have extent : (wordsOf tokens first last).length = last + 1 - first := length_wordsOf inside
    have part : wordsOf tokens first last ≠ [] := List.length_pos_iff.1 (by omega)
    exact ⟨_, _, _, Chart.parse_of_ne_nil (List.length_pos_iff.1 (by omega)),
      Chart.parse_of_ne_nil part, Chart.cell?_ofTokens ordered inside,
      Chart.map_tree?_ids_slice ordered inside⟩
  · intro before after before' after' block words
    obtain ⟨c, ids, parsed, found, trees⟩ := Chart.exists_block before after words rules
    obtain ⟨d, others, parsed', found', trees'⟩ := Chart.exists_block before' after' words rules
    exact ⟨c, d, ids, others, parsed, parsed', found, found', trees.trans trees'.symm⟩

/-- Two words that make up a sentence do so behind an unknown word, and in front of others. -/
theorem parse_slice_pairing :
    ["a", "a"] ≠ [] ∧ 1 ≤ 2 ∧ 2 < ["b", "a", "a"].length ∧
      ∃ c d e ids others, Chart.parse (.ofList pairing) ["b", "a", "a"] = .ok c ∧
        Chart.parse (.ofList pairing) ["a", "a"] = .ok d ∧
        Chart.parse (.ofList pairing) ["a", "a", "b", "a"] = .ok e ∧
        c.cell? 1 2 = some ids ∧ e.cell? 0 1 = some others ∧
        ids.map c.tree? = d.trees.map some ∧ ids.map c.tree? = others.map e.tree? ∧
        .branch ⟨"S"⟩ (.leaf ⟨"S"⟩ "a") (.leaf ⟨"S"⟩ "a") ∈ d.trees := by
  have words : ["a", "a"] ≠ [] := by decide
  obtain ⟨slice, block⟩ := parse_slice (.ofList pairing)
  obtain ⟨c, d, ids, parsed, alone, found, trees⟩ :=
    slice ["b", "a", "a"] 1 2 (by decide) (by decide)
  obtain ⟨c', e, ids', others, parsed', elsewhere, found', foundElsewhere, same⟩ :=
    block ["b"] [] [] ["b", "a"] ["a", "a"] words
  obtain rfl : c = c' := Except.ok.inj (parsed.symm.trans parsed')
  obtain rfl : ids = ids' := Option.some.inj (found.symm.trans found')
  refine ⟨words, by decide, by decide, c, d, e, ids, others, parsed, alone, elsewhere, found,
    foundElsewhere, trees, same, ?_⟩
  obtain rfl : Chart.ofTokens _ ["a", "a"] = d := Except.ok.inj alone
  rw [Chart.trees_ofTokens words,
    mem_derivations_iff (RuleSet.indexed_ofList pairing) (by decide) (by decide)]
  simp [Tree.words, wordsOf, Tree.IsDerivation, Tree.label, RuleSet.mem_toList_ofList, pairing]

end PhraseChart
