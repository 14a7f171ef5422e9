/-
# PhraseChart.Proofs.Chart.Outlines -- different parses have different outlines

The outline of a tree determines it as long as names and words keep to their lines
(`Tree.renderOutline_inj`), and those of a grammar from a text or a file do: a name ends at a blank,
and a word with a blank in it is a fault.  So the outlines of the trees of a sentence are different,
whatever quotes and brackets the names and words hold, and whether or not the trees have the same
words.
-/
import PhraseChart.Proofs.Chart.Rendering
import PhraseChart.Proofs.Tree.Outline

namespace PhraseChart

set_option autoImplicit false

namespace GrammarFile

variable {path : String} {lines : List PhysicalLine} {es : List Entry}

theorem fitsLine_of_isName {label : Nonterminal} (h : (Token.name label.name).IsWritten) :
    Tree.FitsLine label :=
  ⟨not_mem_of_isName h (by decide), not_mem_of_isName h (by decide)⟩

/-- The derivations of a grammar from a file keep to their lines. -/
theorem fitsLines_of_entries (loaded : entries path lines = .ok es) {tree : Tree}
    (follows : tree.IsDerivation (grammar es).rules) : tree.FitsLines := by
  induction tree with
  | leaf label word =>
      refine ⟨fitsLine_of_isName (isName_of_entries loaded follows), fun inside => ?_⟩
      have visible := (isChecked_of_entries loaded follows).2 _ inside
      revert visible
      decide
  | branch label left right ihLeft ihRight =>
      obtain ⟨member, leftFollows, rightFollows⟩ := follows
      exact ⟨fitsLine_of_isName (isName_of_entries loaded member), ihLeft leftFollows,
        ihRight rightFollows⟩

end GrammarFile

/-- **An outline determines its tree.**  For any two trees whose names hold neither spaces nor line
feeds and whose words hold no line feeds, the same outline means the same tree.  Hence the trees of
a sentence of a grammar from a text or a file have different outlines. -/
theorem trees_outlined_apart :
    (∀ t u : Tree, t.FitsLines → u.FitsLines → t.renderOutline = u.renderOutline → t = u) ∧
    ∀ g, GrammarFile.IsLoaded g → ∀ tokens, tokens ≠ [] →
      ∃ c, Chart.parse g.rules tokens = .ok c ∧ (c.trees.map Tree.renderOutline).Nodup := by
  refine ⟨fun t u => Tree.renderOutline_inj, ?_⟩
  intro g isLoaded tokens words
  obtain ⟨path, lines, es, loaded, rfl⟩ := isLoaded.exists_entries
  have indexed : (GrammarFile.grammar es).rules.Indexed := RuleSet.indexed_ofList _
  refine ⟨_, Chart.parse_of_ne_nil words, Chart.nodup_map_trees indexed words ?_⟩
  intro t u followsT followsU _
  exact Tree.renderOutline_inj (GrammarFile.fitsLines_of_entries loaded followsT)
    (GrammarFile.fitsLines_of_entries loaded followsU)

/-- A leaf with spaces and quotes in its word, which looks like two leaves. -/
def spacedLeaf : Tree := .leaf ⟨"A"⟩ "a\" A \"a"

def spacedRight : Tree := .branch ⟨"S"⟩ spacedLeaf (.branch ⟨"S"⟩ spacedLeaf spacedLeaf)

def spacedLeft : Tree := .branch ⟨"S"⟩ (.branch ⟨"S"⟩ spacedLeaf spacedLeaf) spacedLeaf

/-- Two trees over the same leaves, and the two parses of a sentence whose words begin with
brackets. -/
theorem trees_outlined_apart_spaced :
    spacedRight.FitsLines ∧ spacedLeft.FitsLines ∧
      spacedRight.renderOutline ≠ spacedLeft.renderOutline ∧
      GrammarFile.IsLoaded (Grammar.ofDefinitions bracketed) ∧ ["(a", "(a", "(a"] ≠ [] ∧
      ∃ (c : Chart) (t u : Tree),
        Chart.parse (Grammar.ofDefinitions bracketed).rules ["(a", "(a", "(a"] = .ok c ∧
        (c.trees.map Tree.renderOutline).Nodup ∧ t ∈ c.trees ∧ u ∈ c.trees ∧
        t.FitsLines ∧ u.FitsLines ∧ t.words = u.words ∧ t.renderOutline ≠ u.renderOutline := by
  obtain ⟨determined, apart⟩ := trees_outlined_apart
  have different (t u : Tree) (ht : t.FitsLines) (hu : u.FitsLines) (other : t ≠ u) :
      t.renderOutline ≠ u.renderOutline := fun same => other (determined t u ht hu same)
  have words : ["(a", "(a", "(a"] ≠ [] := by decide
  obtain ⟨c, parsed, distinct⟩ := apart _ isLoaded_bracketed _ words
  obtain rfl := Except.ok.inj ((Chart.parse_of_ne_nil words).symm.trans parsed)
  obtain ⟨right, left⟩ := mem_trees_bracketed
  exact ⟨by decide, by decide, different _ _ (by decide) (by decide) (by decide),
    isLoaded_bracketed, words, _, bracketedRight, bracketedLeft, parsed, distinct, right, left,
    by decide, by decide, by decide, different _ _ (by decide) (by decide) (by decide)⟩

end PhraseChart
