/-
# PhraseChart.Proofs.Chart.Reordering -- rules in another order

A rule set that has been built from the same rules in another order answers with the same heads,
perhaps in another order.  This reorders the cells of a chart, and with them the numbering of its
nodes, but it adds no tree and loses none.  The forest has as many nodes as there are derivations of
all spans together (`Chart.size_forest_ofTokens`), so it does not change in size either.

The order of registration only shows among rules with one right-hand side.  Where that order is
kept, all heads are the same lists, and a chart is a function of them: rule sets that agree on
the words of a sentence and on all pairs of nonterminals mirror each other under maps that rename
nothing, so they give one chart (`parse_reordered`).
-/
import PhraseChart.Proofs.Chart.Layout
import PhraseChart.Proofs.Chart.Renaming

namespace PhraseChart

set_option autoImplicit false

variable {rules others : RuleSet} {inserted reordered : List Rule} {tokens : List Word}

/-! ## Rule sets -/

namespace RuleSet

/-- The same rules in another order leave the same rules. -/
theorem perm_toList_ofList (same : inserted.Perm reordered) :
    (ofList inserted).toList.Perm (ofList reordered).toList := by
  rw [toList_ofList, toList_ofList]
  refine (List.perm_ext_iff_of_nodup (nodup_eraseDups _) (nodup_eraseDups _)).2 fun rule => ?_
  rw [List.mem_eraseDups, List.mem_eraseDups, same.mem_iff]

/-- Heads follow the order of the rules with their right-hand side. -/
theorem heads_ofList_congr {rhs : Rhs}
    (kept : (inserted.filter fun rule => rule.rhs = rhs) =
      reordered.filter fun rule => rule.rhs = rhs) :
    (ofList inserted).heads rhs = (ofList reordered).heads rhs := by
  rw [heads_ofList, heads_ofList, headsAmong, headsAmong, kept]

end RuleSet

/-! ## Renaming nothing -/

theorem Node.rename_id (node : Node) : node.rename id = node := by
  cases node <;> rfl

theorem Chart.rename_id (c : Chart) : c.rename id id = c := by
  have forest : c.forest.rename id = c.forest := by
    apply Forest.ext
    rw [Forest.nodes_rename, show Node.rename id = id from funext Node.rename_id, Array.map_id]
  rw [rename, List.map_id, forest]

namespace Chart

/-- Rule sets that give the same answers give the same chart. -/
theorem ofTokens_congr
    (lexical : ∀ word ∈ tokens, rules.heads (.lexical word) = others.heads (.lexical word))
    (binary : ∀ left right, rules.heads (.binary left right) = others.heads (.binary left right)) :
    ofTokens rules tokens = ofTokens others tokens := by
  have mirrors : RuleSet.Mirrors id id tokens rules others :=
    ⟨fun word member => by rw [List.map_id, lexical word member]; rfl,
      fun left right => by rw [List.map_id, binary left right]; rfl⟩
  have renamed := ofTokens_rename mirrors
  rwa [List.map_id, rename_id, eq_comm] at renamed

/-! ## The size of a forest -/

/-- A forest has one node for each derivation of each span. -/
theorem size_forest_ofTokens (rules : RuleSet) (tokens : List Word) :
    (ofTokens rules tokens).forest.size =
      ((spans tokens.length).map fun span =>
        (derivations rules tokens span.first span.last).length).sum := by
  have numbered := congrArg List.length (laidOut_ofTokens rules tokens).ids
  rw [List.length_flatMap, List.length_map, List.length_range] at numbered
  rw [← numbered]
  congr 1
  apply List.map_congr_left
  intro span member
  obtain ⟨ordered, inside⟩ := mem_spans.1 member
  have expanded := congrArg List.length (@map_tree?_ids rules tokens _ _ ordered inside)
  rwa [List.length_map, List.length_map] at expanded

theorem size_forest_of_perm (indexed : rules.Indexed) (indexed' : others.Indexed)
    (same : rules.toList.Perm others.toList) (tokens : List Word) :
    (ofTokens rules tokens).forest.size = (ofTokens others tokens).forest.size := by
  rw [size_forest_ofTokens, size_forest_ofTokens]
  congr 1
  apply List.map_congr_left
  intro span member
  obtain ⟨ordered, inside⟩ := mem_spans.1 member
  exact (derivations_perm indexed indexed' same ordered inside).length_eq

end Chart

/-- **Of the order of registration, only the order under each right-hand side matters.**  Inserting
rules in another order gives a chart with the same trees in each cell, up to their order, and a
forest of the same size.  If the rules with one right-hand side keep their order, the chart is the
same; and so it is for any two rule sets that give the same heads for the words of the sentence and
for all pairs of nonterminals. -/
theorem parse_reordered (tokens : List Word) (words : tokens ≠ []) :
    (∀ inserted reordered : List Rule, inserted.Perm reordered →
      ∃ c d, Chart.parse (.ofList inserted) tokens = .ok c ∧
        Chart.parse (.ofList reordered) tokens = .ok d ∧
        c.SameTrees d ∧ c.forest.size = d.forest.size ∧
        ((∀ rhs, (inserted.filter fun rule => rule.rhs = rhs) =
          reordered.filter fun rule => rule.rhs = rhs) → c = d)) ∧
    ∀ rules others : RuleSet,
      (∀ word ∈ tokens, rules.headsOfNames [word] = others.headsOfNames [word]) →
      (∀ left right, rules.headsOfNames [left, right] = others.headsOfNames [left, right]) →
      ∃ c, Chart.parse rules tokens = .ok c ∧ Chart.parse others tokens = .ok c := by
  constructor
  · intro inserted reordered same
    have indexed := RuleSet.indexed_ofList inserted
    have indexed' := RuleSet.indexed_ofList reordered
    have kept := RuleSet.perm_toList_ofList same
    exact ⟨_, _, Chart.parse_of_ne_nil words, Chart.parse_of_ne_nil words,
      Chart.sameTrees_of_perm indexed indexed' kept tokens,
      Chart.size_forest_of_perm indexed indexed' kept tokens,
      fun order => Chart.ofTokens_congr (fun _ _ => RuleSet.heads_ofList_congr (order _))
        fun _ _ => RuleSet.heads_ofList_congr (order _)⟩
  · intro rules others lexical binary
    have same : Chart.ofTokens rules tokens = Chart.ofTokens others tokens :=
      Chart.ofTokens_congr lexical fun left right => binary left.name right.name
    exact ⟨_, Chart.parse_of_ne_nil words, by rw [Chart.parse_of_ne_nil words, same]⟩

/-! One word of two nonterminals: its rules may be moved together, but not past each other -/

def shared : List Rule :=
  [⟨⟨"S"⟩, .lexical "a"⟩, ⟨⟨"T"⟩, .lexical "a"⟩, ⟨⟨"S"⟩, .binary ⟨"S"⟩ ⟨"T"⟩⟩]

def sharedMoved : List Rule :=
  [⟨⟨"S"⟩, .binary ⟨"S"⟩ ⟨"T"⟩⟩, ⟨⟨"S"⟩, .lexical "a"⟩, ⟨⟨"T"⟩, .lexical "a"⟩]

def sharedSwapped : List Rule :=
  [⟨⟨"T"⟩, .lexical "a"⟩, ⟨⟨"S"⟩, .lexical "a"⟩, ⟨⟨"S"⟩, .binary ⟨"S"⟩ ⟨"T"⟩⟩]

theorem filter_rhs_sharedMoved (rhs : Rhs) :
    (shared.filter fun rule => rule.rhs = rhs) =
      sharedMoved.filter fun rule => rule.rhs = rhs := by
  cases rhs with
  | lexical word => simp [shared, sharedMoved, List.filter_cons]
  | binary left right => simp [shared, sharedMoved, List.filter_cons]

/-- The chart is the same after the move and with a rule for another word; after the swap it holds
the same trees in another order. -/
theorem parse_reordered_shared :
    ["a", "a"] ≠ [] ∧ shared.Perm sharedMoved ∧ shared.Perm sharedSwapped ∧
      ∃ c d, Chart.parse (.ofList shared) ["a", "a"] = .ok c ∧
        Chart.parse (.ofList sharedMoved) ["a", "a"] = .ok c ∧
        Chart.parse (.ofList (shared ++ [⟨⟨"S"⟩, .lexical "b"⟩])) ["a", "a"] = .ok c ∧
        Chart.parse (.ofList sharedSwapped) ["a", "a"] = .ok d ∧
        c.SameTrees d ∧ c.forest.size = d.forest.size ∧ c ≠ d := by
  have words : ["a", "a"] ≠ [] := by decide
  have moved : shared.Perm sharedMoved := by decide
  have swapped : shared.Perm sharedSwapped := by decide
  obtain ⟨orders, agreeing⟩ := parse_reordered ["a", "a"] words
  obtain ⟨c, d, parsed, parsedSwapped, sameTrees, sameSize, -⟩ := orders _ _ swapped
  obtain ⟨c', e, parsed', parsedMoved, -, -, unmoved⟩ := orders _ _ moved
  obtain ⟨c'', parsed'', parsedMore⟩ :=
    agreeing (.ofList shared) (.ofList (shared ++ [⟨⟨"S"⟩, .lexical "b"⟩]))
      (fun word member => RuleSet.heads_ofList_congr (by
        obtain rfl : word = "a" := by simpa using member
        decide))
      (fun left right => RuleSet.heads_ofList_congr (by simp [List.filter_append]))
  obtain rfl : c = c' := Except.ok.inj (parsed.symm.trans parsed')
  obtain rfl : c = c'' := Except.ok.inj (parsed.symm.trans parsed'')
  obtain rfl := unmoved filter_rhs_sharedMoved
  refine ⟨words, moved, swapped, c, d, parsed, parsedMoved, parsedMore, parsedSwapped, sameTrees,
    sameSize, fun same => ?_⟩
  obtain rfl : Chart.ofTokens _ _ = c := Except.ok.inj parsed
  obtain rfl : Chart.ofTokens _ _ = d := Except.ok.inj parsedSwapped
  have firstCell := congrArg (fun c : Chart => (c.ids 0 0).map c.tree?) same
  simp only [Chart.map_tree?_ids (Nat.le_refl 0) (show 0 < ["a", "a"].length by decide),
    derivations_self, wordTrees, List.getElem?_cons_zero, RuleSet.heads_ofList] at firstCell
  revert firstCell
  decide

end PhraseChart
