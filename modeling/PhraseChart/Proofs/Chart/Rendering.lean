/-
# PhraseChart.Proofs.Chart.Rendering -- different parses are printed differently

The trees of a sentence are different from each other and have the same words, so their texts are
different too as long as no name and no word holds a space.  Loading sees to that: a name ends at
a blank, and a word with a blank in it is a fault.  It does not keep brackets out of names and
words, and it need not (`render_append_inj`).
-/
import PhraseChart.Proofs.Chart.Language
import PhraseChart.Proofs.GrammarFile.Loaded
import PhraseChart.Proofs.Tree.Brackets

namespace PhraseChart

set_option autoImplicit false

variable {rules : RuleSet} {tokens : List Word} {symbol : Nonterminal}

namespace GrammarFile

variable {path : String} {lines : List PhysicalLine} {es : List Entry}

theorem not_mem_of_isName {name : String} {c : Char} (h : (Token.name name).IsWritten)
    (strange : Token.isNameChar c = false) : c ∉ name.toList := fun inside => by
  cases strange.symm.trans (h.2 c inside)

/-- The derivations of a grammar from a file hold no space. -/
theorem noSpaces_of_entries (loaded : entries path lines = .ok es) {tree : Tree}
    (follows : tree.IsDerivation (grammar es).rules) : tree.NoSpaces := by
  induction tree with
  | leaf label word =>
      refine ⟨not_mem_of_isName (isName_of_entries loaded follows) (by decide), fun inside => ?_⟩
      have visible := (isChecked_of_entries loaded follows).2 _ inside
      revert visible
      decide
  | branch label left right ihLeft ihRight =>
      obtain ⟨member, leftFollows, rightFollows⟩ := follows
      exact ⟨not_mem_of_isName (isName_of_entries loaded member) (by decide), ihLeft leftFollows,
        ihRight rightFollows⟩

end GrammarFile

/-- Trees of the same words without spaces are told apart by their texts. -/
theorem Tree.render_inj {t u : Tree} (ht : t.NoSpaces) (hu : u.NoSpaces)
    (sameWords : t.words = u.words) (sameText : t.render = u.render) : t = u := by
  have behindNothing : [] ++ t.render.toList = [] ++ u.render.toList := by rw [sameText]
  have afterNothing : [] ++ t.words = [] ++ u.words := by rw [sameWords]
  exact (render_append_inj ht hu (.inl rfl) (.inl rfl) afterNothing behindNothing).2

namespace Chart

/-- The trees of a sentence are its derivation trees. -/
theorem mem_trees_iff (indexed : rules.Indexed) (words : tokens ≠ []) {tree : Tree} :
    tree ∈ (ofTokens rules tokens).trees ↔ tree.words = tokens ∧ tree.IsDerivation rules := by
  rw [trees_ofTokens words, mem_derivations_iff indexed (Nat.zero_le _) (last_lt words),
    wordsOf_sentence words]

section Sentence

variable (indexed : rules.Indexed) (words : tokens ≠ [])

include indexed words

/-- The trees of a sentence are written differently if the texts tell derivations of the same words
apart. -/
theorem nodup_map_trees {α : Type} {write : Tree → α}
    (apart : ∀ t u : Tree, t.IsDerivation rules → u.IsDerivation rules → t.words = u.words →
      write t = write u → t = u) :
    ((ofTokens rules tokens).trees.map write).Nodup := by
  have distinct : (ofTokens rules tokens).trees.Nodup := by
    rw [trees_ofTokens words]
    exact nodup_derivations indexed (Nat.zero_le _) (last_lt words)
  refine distinct.map_on fun t isTree u isTree' sameText => ?_
  obtain ⟨wordsT, followsT⟩ := (mem_trees_iff indexed words).1 isTree
  obtain ⟨wordsU, followsU⟩ := (mem_trees_iff indexed words).1 isTree'
  exact apart t u followsT followsU (wordsT.trans wordsU.symm) sameText

variable (free : ∀ tree : Tree, tree.IsDerivation rules → tree.NoSpaces)

include free

theorem nodup_render_trees : ((ofTokens rules tokens).trees.map Tree.render).Nodup :=
  nodup_map_trees indexed words fun t u followsT followsU =>
    Tree.render_inj (free t followsT) (free u followsU)

theorem nodup_render_parses : (((ofTokens rules tokens).parses symbol).map Tree.render).Nodup := by
  have kept : ((ofTokens rules tokens).parses symbol).Sublist (ofTokens rules tokens).trees := by
    rw [parses_ofTokens words, trees_ofTokens words]
    exact List.filter_sublist
  exact (nodup_render_trees indexed words free).sublist (kept.map _)

end Sentence

end Chart

/-- **No two parses of a sentence are printed alike.**  For a grammar from a text or a file the
trees of a sentence have different texts, whatever brackets its names and words hold; and any two
trees with the same words and the same text are equal if they hold no space. -/
theorem trees_rendered_apart :
    (∀ g, GrammarFile.IsLoaded g → ∀ tokens, tokens ≠ [] →
      ∃ c, Chart.parse g.rules tokens = .ok c ∧ (c.trees.map Tree.render).Nodup ∧
        ∀ symbol, ((c.parses symbol).map Tree.render).Nodup) ∧
    ∀ t u : Tree, t.NoSpaces → u.NoSpaces → t.words = u.words → t.render = u.render → t = u := by
  refine ⟨?_, fun t u => Tree.render_inj⟩
  intro g isLoaded tokens words
  obtain ⟨path, lines, es, loaded, rfl⟩ := isLoaded.exists_entries
  have indexed : (GrammarFile.grammar es).rules.Indexed := RuleSet.indexed_ofList _
  have free (tree : Tree) (follows : tree.IsDerivation (GrammarFile.grammar es).rules) :
      tree.NoSpaces := GrammarFile.noSpaces_of_entries loaded follows
  exact ⟨_, Chart.parse_of_ne_nil words, Chart.nodup_render_trees indexed words free,
    fun _ => Chart.nodup_render_parses indexed words free⟩

/-- A name that could close a phrase, and a word that could open one. -/
def bracketedText : String := "S) = S) S) | \"(a\"\n"

def bracketed : List Definition := [⟨⟨"S)"⟩, [.binary ⟨"S)"⟩ ⟨"S)"⟩, .lexical "(a"]⟩]

theorem isLoaded_bracketed : GrammarFile.IsLoaded (Grammar.ofDefinitions bracketed) := by
  refine ⟨"file", .inl ⟨bracketedText, GrammarFile.load_eq_ok_iff.2
    ⟨bracketed, ?_, by decide, by decide, rfl⟩⟩⟩
  have lines : Text.lines bracketedText.toList = bracketed.map fun d => d.render.toList := by decide
  rw [lines]
  exact GrammarFile.defines_render (by decide)

def bracketedLeaf : Tree := .leaf ⟨"S)"⟩ "(a"

def bracketedRight : Tree :=
  .branch ⟨"S)"⟩ bracketedLeaf (.branch ⟨"S)"⟩ bracketedLeaf bracketedLeaf)

def bracketedLeft : Tree :=
  .branch ⟨"S)"⟩ (.branch ⟨"S)"⟩ bracketedLeaf bracketedLeaf) bracketedLeaf

theorem mem_trees_bracketed :
    bracketedRight ∈ (Chart.ofTokens (Grammar.ofDefinitions bracketed).rules
      ["(a", "(a", "(a"]).trees ∧
    bracketedLeft ∈ (Chart.ofTokens (Grammar.ofDefinitions bracketed).rules
      ["(a", "(a", "(a"]).trees := by
  have indexed := Grammar.indexed_ofDefinitions bracketed
  have word : bracketedLeaf.IsDerivation (Grammar.ofDefinitions bracketed).rules :=
    Grammar.mem_ofDefinitions.2 (by decide)
  have pair : ⟨⟨"S)"⟩, .binary ⟨"S)"⟩ ⟨"S)"⟩⟩ ∈ (Grammar.ofDefinitions bracketed).rules.toList :=
    Grammar.mem_ofDefinitions.2 (by decide)
  rw [Chart.mem_trees_iff indexed (by decide), Chart.mem_trees_iff indexed (by decide)]
  exact ⟨⟨by decide, pair, word, pair, word, word⟩, by decide, pair, ⟨pair, word, word⟩, word⟩

/-- The two parses of three words are `(S) (S) (a) (S) (S) (a) (S) (a)))` and
`(S) (S) (S) (a) (S) (a)) (S) (a))`. -/
theorem trees_rendered_apart_bracketed :
    GrammarFile.IsLoaded (Grammar.ofDefinitions bracketed) ∧ ["(a", "(a", "(a"] ≠ [] ∧
      ∃ (c : Chart) (t u : Tree),
        Chart.parse (Grammar.ofDefinitions bracketed).rules ["(a", "(a", "(a"] = .ok c ∧
        (c.trees.map Tree.render).Nodup ∧ t ∈ c.trees ∧ u ∈ c.trees ∧
        t.NoSpaces ∧ u.NoSpaces ∧ t.words = u.words ∧ t.render ≠ u.render := by
  have words : ["(a", "(a", "(a"] ≠ [] := by decide
  obtain ⟨apart, unique⟩ := trees_rendered_apart
  obtain ⟨c, parsed, distinct, -⟩ := apart _ isLoaded_bracketed _ words
  obtain rfl := Except.ok.inj ((Chart.parse_of_ne_nil words).symm.trans parsed)
  obtain ⟨right, left⟩ := mem_trees_bracketed
  exact ⟨isLoaded_bracketed, words, _, bracketedRight, bracketedLeft, parsed, distinct, right, left,
    by decide, by decide, by decide,
    fun same => absurd (unique _ _ (by decide) (by decide) (by decide) same) (by decide)⟩

end PhraseChart
