/-
# PhraseChart.Proofs.Chart.Extension -- more rules only add derivations

Inserting a rule appends its left-hand side to the heads of its right-hand side, or changes
nothing.  So a rule set that has been extended offers, for each right-hand side, what it
offered before and perhaps more behind it (`RuleSet.Extends`).

The list of derivations of a span is made of heads by maps and nested concatenation, and
both keep the order.  Hence it becomes longer by insertions at any place and by nothing else
(`RuleSet.Extends.derivations_sublist`), although the parts of a span have grown as well.
`parse_insertMany_sublist` is the statement for charts, whose ids may all be different.
-/
import Mathlib.Data.List.Flatten
import PhraseChart.Proofs.Chart.Exactness
import PhraseChart.Proofs.Chart.Lexicon

namespace PhraseChart

set_option autoImplicit false

variable {rules others : RuleSet} {tokens : List Word} {first last : Nat}

/-! ## Heads -/

namespace RuleSet

/-- The second rule set rewrites to each right-hand side at least what the first does, in the
same order. -/
def Extends (rules others : RuleSet) : Prop :=
  ∀ rhs, (rules.heads rhs).Sublist (others.heads rhs)

theorem Extends.trans {third : RuleSet} (h : rules.Extends others) (next : others.Extends third) :
    rules.Extends third := fun rhs => (h rhs).trans (next rhs)

theorem extends_insert (rules : RuleSet) (rule : Rule) : rules.Extends (rules.insert rule) := by
  intro rhs
  rw [heads_insert]
  split
  · exact List.sublist_append_left _ _
  · exact List.Sublist.refl _

theorem extends_insertMany (rules : RuleSet) (more : List Rule) :
    rules.Extends (rules.insertMany more) := by
  induction more generalizing rules with
  | nil => exact fun _ => List.Sublist.refl _
  | cons rule rest ih => exact (extends_insert rules rule).trans (ih (rules.insert rule))

end RuleSet

/-! ## Derivations -/

/-- Concatenating longer lists over a longer list gives a longer list, in the same order. -/
theorem flatMap_sublist_flatMap {α β : Type} {l m : List α} {f g : α → List β} (h : l.Sublist m)
    (each : ∀ a ∈ l, (f a).Sublist (g a)) : (l.flatMap f).Sublist (m.flatMap g) :=
  (List.Sublist.flatMap_right l each).trans (h.flatMap g)

namespace RuleSet.Extends

theorem joinTrees_sublist (h : rules.Extends others) (left right : Tree) :
    (joinTrees rules left right).Sublist (joinTrees others left right) := (h _).map _

theorem wordTrees_sublist (h : rules.Extends others) (tokens : List Word) (position : Nat) :
    (wordTrees rules tokens position).Sublist (wordTrees others tokens position) := by
  unfold wordTrees
  cases tokens[position]? with
  | none => exact List.Sublist.refl _
  | some word => exact (h _).map _

/-- **No derivation of a span is lost, repeated or moved behind another one.** -/
theorem derivations_sublist (h : rules.Extends others) (ordered : first ≤ last) :
    (derivations rules tokens first last).Sublist (derivations others tokens first last) := by
  induction extent : last - first using Nat.strongRecOn generalizing first last with
  | _ extent ih =>
      rcases Nat.eq_or_lt_of_le ordered with rfl | longer
      · rw [derivations_self, derivations_self]
        exact h.wordTrees_sublist tokens first
      · rw [derivations_of_lt longer, derivations_of_lt longer]
        apply flatMap_sublist_flatMap (List.Sublist.refl _)
        intro split member
        obtain ⟨low, high⟩ := mem_splits.1 member
        have lefts := ih (split - first) (by omega) low rfl
        have rights := ih (last - (split + 1)) (by omega) (by omega : split + 1 ≤ last) rfl
        exact flatMap_sublist_flatMap lefts fun left _ =>
          flatMap_sublist_flatMap rights fun right _ => h.joinTrees_sublist left right

/-- A word that is known stays known. -/
theorem unknownWords_sublist (h : rules.Extends others) (tokens : List Word) :
    (Chart.ofTokens others tokens).unknownWords.Sublist
      (Chart.ofTokens rules tokens).unknownWords := by
  rw [Chart.unknownWords_ofTokens, Chart.unknownWords_ofTokens]
  refine (List.monotone_filter_right _ fun token => ?_).map _
  intro unknown
  rw [List.isEmpty_iff] at unknown ⊢
  exact List.sublist_nil.1 (unknown ▸ h (.lexical token.1))

end RuleSet.Extends

/-! ## Charts -/

/-- **Inserting rules only adds to a chart.**  In each cell the trees from before follow one
another as they did, with new trees between them; so no parse, no derived symbol and no known
word is lost. -/
theorem parse_insertMany_sublist (rules : RuleSet) (more : List Rule) (tokens : List Word)
    (words : tokens ≠ []) :
    ∃ c d, Chart.parse rules tokens = .ok c ∧ Chart.parse (rules.insertMany more) tokens = .ok d ∧
      (∀ first last, first ≤ last → last < tokens.length →
        ∃ (ids grownIds : List NodeId) (trees grownTrees : List Tree),
          c.cell? first last = some ids ∧ ids.map c.tree? = trees.map some ∧
          d.cell? first last = some grownIds ∧ grownIds.map d.tree? = grownTrees.map some ∧
          trees.Sublist grownTrees) ∧
      c.trees.Sublist d.trees ∧
      (∀ symbol, (c.parses symbol).Sublist (d.parses symbol)) ∧
      (∀ symbol, c.derives symbol = true → d.derives symbol = true) ∧
      d.unknownWords.Sublist c.unknownWords := by
  have grown := rules.extends_insertMany more
  have parses (symbol : Nonterminal) : ((Chart.ofTokens rules tokens).parses symbol).Sublist
      ((Chart.ofTokens (rules.insertMany more) tokens).parses symbol) := by
    rw [Chart.parses_ofTokens words, Chart.parses_ofTokens words]
    exact (grown.derivations_sublist (Nat.zero_le _)).filter _
  refine ⟨_, _, Chart.parse_of_ne_nil words, Chart.parse_of_ne_nil words, ?_, ?_, parses, ?_,
    grown.unknownWords_sublist tokens⟩
  · intro first last ordered inside
    exact ⟨_, _, _, _, Chart.cell?_ofTokens ordered inside, Chart.map_tree?_ids ordered inside,
      Chart.cell?_ofTokens ordered inside, Chart.map_tree?_ids ordered inside,
      grown.derivations_sublist ordered⟩
  · rw [Chart.trees_ofTokens words, Chart.trees_ofTokens words]
    exact grown.derivations_sublist (Nat.zero_le _)
  · intro symbol
    simp only [Chart.derives_iff_exists_parse words]
    rintro ⟨tree, member⟩
    exact ⟨tree, (parses symbol).subset member⟩

/-- Another nonterminal for the word, and a rule that pairs it with a sentence. -/
def pairingMore : List Rule :=
  [⟨⟨"T"⟩, .lexical "a"⟩, ⟨⟨"S"⟩, .binary ⟨"T"⟩ ⟨"S"⟩⟩]

/-- The new rules give a second parse of two words beside the old one. -/
theorem parse_insertMany_sublist_pairing :
    ["a", "a"] ≠ [] ∧
      ∃ c d, Chart.parse (.ofList pairing) ["a", "a"] = .ok c ∧
        Chart.parse ((RuleSet.ofList pairing).insertMany pairingMore) ["a", "a"] = .ok d ∧
        (c.parses ⟨"S"⟩).Sublist (d.parses ⟨"S"⟩) ∧
        .branch ⟨"S"⟩ (.leaf ⟨"S"⟩ "a") (.leaf ⟨"S"⟩ "a") ∈ c.parses ⟨"S"⟩ ∧
        .branch ⟨"S"⟩ (.leaf ⟨"T"⟩ "a") (.leaf ⟨"S"⟩ "a") ∈ d.parses ⟨"S"⟩ ∧
        .branch ⟨"S"⟩ (.leaf ⟨"T"⟩ "a") (.leaf ⟨"S"⟩ "a") ∉ c.parses ⟨"S"⟩ := by
  have words : ["a", "a"] ≠ [] := by decide
  have indexed := RuleSet.indexed_ofList pairing
  obtain ⟨c, d, parsed, parsedMore, -, -, parses, -, -⟩ :=
    parse_insertMany_sublist (.ofList pairing) pairingMore ["a", "a"] words
  refine ⟨words, c, d, parsed, parsedMore, parses ⟨"S"⟩, ?_⟩
  obtain rfl : Chart.ofTokens _ _ = c := Except.ok.inj parsed
  obtain rfl : Chart.ofTokens _ _ = d := Except.ok.inj parsedMore
  simp only [Chart.mem_parses_iff words indexed, Tree.IsDerivation,
    Chart.mem_parses_iff words (indexed.insertMany pairingMore), RuleSet.toList_insertMany indexed,
    RuleSet.toList_ofList]
  decide

end PhraseChart
