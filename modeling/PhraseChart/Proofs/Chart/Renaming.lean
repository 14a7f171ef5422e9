/-
# PhraseChart.Proofs.Chart.Renaming -- a chart under other names

Names get into a chart in two places only: the words of the sentence, and the labels that the rules
give to nodes.  All the rest is numbers, and they come out of the lengths of the lists that the
rules answer with.  So when one rule set mirrors another (`RuleSet.Mirrors`), a chart is filled
under both alike: every operation on forests commutes with renaming (`Forest.addLeaves_rename`,
`Forest.addBranches_rename`), hence joining two nodes does (`Composition.join_rename`), filling one
cell does (`Chart.fill_rename`), and so does a whole run (`Chart.ofTokens_rename`).  No invariant of
the chart is called for; a composition that is stopped is stopped under both.

`parse_rename` draws the conclusion for injective maps of names.
-/
import PhraseChart.Proofs.Chart.Language
import PhraseChart.Proofs.Grammar.Renaming

namespace PhraseChart

set_option autoImplicit false

variable {f : Nonterminal → Nonterminal} {g : Word → Word}

/-! ## Nodes and forests -/

namespace Node

/-- A node with another label, at the same place. -/
def rename (f : Nonterminal → Nonterminal) : Node → Node
  | .leaf label position => .leaf (f label) position
  | .branch label span left right => .branch (f label) span left right

@[simp]
theorem label_rename (node : Node) : (node.rename f).label = f node.label := by
  cases node <;> rfl

@[simp]
theorem span_rename (node : Node) : (node.rename f).span = node.span := by
  cases node <;> rfl

@[simp]
theorem children?_rename (node : Node) : (node.rename f).children? = node.children? := by
  cases node <;> rfl

end Node

namespace Forest

def rename (f : Nonterminal → Nonterminal) (forest : Forest) : Forest where
  nodes := forest.nodes.map (Node.rename f)
  children_lt := by
    intro i node found left right children
    rw [Array.getElem?_map, Option.map_eq_some_iff] at found
    obtain ⟨original, found, rfl⟩ := found
    rw [Node.children?_rename] at children
    exact forest.children_lt i original found left right children

variable (forest : Forest)

@[simp]
theorem nodes_rename : (forest.rename f).nodes = forest.nodes.map (Node.rename f) := rfl

@[simp]
theorem size_rename : (forest.rename f).size = forest.size := by
  rw [size, nodes_rename, Array.size_map, size]

theorem get?_rename (id : NodeId) :
    (forest.rename f).get? id = (forest.get? id).map (Node.rename f) := by
  rw [get?, nodes_rename, Array.getElem?_map, get?]

theorem addLeaves_rename (labels : List Nonterminal) (position : Nat) :
    (forest.rename f).addLeaves (labels.map f) position =
      ((forest.addLeaves labels position).1, (forest.addLeaves labels position).2.rename f) := by
  refine Prod.ext ?_ (ext ?_)
  · simp [addLeaves, nextIds]
  · simp [addLeaves, Node.rename, Function.comp_def]

theorem addBranches_rename (labels : List Nonterminal) {left right : NodeId}
    (leftSpan rightSpan : Span) (hLeft : left.index < forest.size)
    (hRight : right.index < forest.size) (hLeft' : left.index < (forest.rename f).size)
    (hRight' : right.index < (forest.rename f).size) :
    (forest.rename f).addBranches (labels.map f) left right leftSpan rightSpan hLeft' hRight' =
      ((forest.addBranches labels left right leftSpan rightSpan hLeft hRight).1,
        (forest.addBranches labels left right leftSpan rightSpan hLeft hRight).2.rename f) := by
  refine Prod.ext ?_ (ext ?_)
  · simp [addBranches, nextIds]
  · simp [addBranches, Node.above, Node.rename, Function.comp_def]

end Forest

/-! ## Joining -/

namespace Composition

def rename (f : Nonterminal → Nonterminal) (c : Composition) : Composition :=
  { c with forest := c.forest.rename f }

variable {rules others : RuleSet}
  (mirrored : ∀ left right,
    others.heads (.binary (f left) (f right)) = (rules.heads (.binary left right)).map f)

include mirrored

theorem join_rename (left right : NodeId) (c : Composition) :
    join others left (c.rename f) right = (join rules left c right).rename f := by
  by_cases stopped : c.stopped = true
  · rw [join_of_stopped stopped, join_of_stopped (show (c.rename f).stopped = true from stopped)]
  have running : c.stopped = false := by simpa using stopped
  have running' : (c.rename f).stopped = false := running
  by_cases missing : c.forest.get? left = none ∨ c.forest.get? right = none
  · have missing' :
        (c.rename f).forest.get? left = none ∨ (c.rename f).forest.get? right = none := by
      simpa only [rename, Forest.get?_rename, Option.map_eq_none_iff] using missing
    rw [join_of_get?_none running missing, join_of_get?_none running' missing']
    rfl
  · obtain ⟨hasLeft, hasRight⟩ := not_or.1 missing
    obtain ⟨l, foundLeft⟩ := Option.ne_none_iff_exists'.1 hasLeft
    obtain ⟨r, foundRight⟩ := Option.ne_none_iff_exists'.1 hasRight
    have foundLeft' : (c.forest.rename f).get? left = some (l.rename f) := by
      rw [Forest.get?_rename, foundLeft, Option.map_some]
    have foundRight' : (c.forest.rename f).get? right = some (r.rename f) := by
      rw [Forest.get?_rename, foundRight, Option.map_some]
    have grown := c.forest.addBranches_rename (f := f) (rules.heads (.binary l.label r.label))
      l.span r.span (Forest.lt_size_of_get? foundLeft) (Forest.lt_size_of_get? foundRight)
      (Forest.lt_size_of_get? foundLeft') (Forest.lt_size_of_get? foundRight')
    rw [join_of_get? running foundLeft foundRight, join_of_get? running' foundLeft' foundRight']
    simp only [Node.label_rename, Node.span_rename, mirrored, rename, grown]

theorem joinAll_rename (lefts rights : List NodeId) (c : Composition) :
    joinAll others lefts rights (c.rename f) = (joinAll rules lefts rights c).rename f :=
  List.foldl_hom (rename f) fun _ left =>
    List.foldl_hom (rename f) fun c right => join_rename mirrored left right c

end Composition

/-! ## Charts -/

namespace Chart

/-- The chart with other words and other labels, and with the same cells. -/
def rename (f : Nonterminal → Nonterminal) (g : Word → Word) (c : Chart) : Chart :=
  { tokens := c.tokens.map g, cells := c.cells, forest := c.forest.rename f }

variable {rules others : RuleSet} {tokens : List Word}

theorem wordNodes_rename (mirrors : RuleSet.Mirrors f g tokens rules others) (forest : Forest)
    (position : Nat) :
    wordNodes others (tokens.map g) (forest.rename f) position =
      ((wordNodes rules tokens forest position).1,
        (wordNodes rules tokens forest position).2.rename f) := by
  rw [wordNodes, wordNodes, List.getElem?_map]
  cases found : tokens[position]? with
  | none => rfl
  | some word =>
      simp only [Option.map_some, mirrors.lexical word (List.mem_of_getElem? found)]
      exact forest.addLeaves_rename _ position

theorem phraseNodes_rename (mirrors : RuleSet.Mirrors f g tokens rules others)
    (cells : Triangle (List NodeId)) (forest : Forest) (span : Span) :
    phraseNodes others cells (forest.rename f) span =
      ((phraseNodes rules cells forest span).1,
        (phraseNodes rules cells forest span).2.rename f) := by
  have joined : (splits span).foldl
      (fun joined split => Composition.joinAll others (idsIn cells span.first split)
        (idsIn cells (split + 1) span.last) joined) ((Composition.start forest).rename f) =
      ((splits span).foldl
        (fun joined split => Composition.joinAll rules (idsIn cells span.first split)
          (idsIn cells (split + 1) span.last) joined) (Composition.start forest)).rename f :=
    List.foldl_hom (Composition.rename f) fun c split =>
      Composition.joinAll_rename mirrors.binary _ _ c
  exact congrArg (fun c : Composition => (c.ids.toList, c.forest)) joined

/-- **One step.**  A cell is filled alike under both rule sets. -/
theorem fill_rename {c : Chart} (mirrors : RuleSet.Mirrors f g c.tokens rules others)
    (span : Span) : fill others (c.rename f g) span = (fill rules c span).rename f g := by
  have nodes : spanNodes others (c.rename f g) span =
      ((spanNodes rules c span).1, (spanNodes rules c span).2.rename f) := by
    unfold spanNodes
    split
    · exact wordNodes_rename mirrors c.forest span.first
    · exact phraseNodes_rename mirrors c.cells c.forest span
  rw [fill_eq, fill_eq, nodes]
  rfl

theorem blank_rename (tokens : List Word) :
    (blank tokens).rename f g = blank (tokens.map g) := by
  have empty : Forest.empty.rename f = .empty := Forest.ext (by simp [Forest.empty])
  rw [rename, blank, blank, List.length_map, empty]

/-- **A whole run.** -/
theorem ofTokens_rename (mirrors : RuleSet.Mirrors f g tokens rules others) :
    ofTokens others (tokens.map g) = (ofTokens rules tokens).rename f g := by
  have run (pending : List Span) (c : Chart) (h : c.tokens = tokens) :
      pending.foldl (fill others) (c.rename f g) = (pending.foldl (fill rules) c).rename f g := by
    induction pending generalizing c with
    | nil => rfl
    | cons span rest ih =>
        rw [List.foldl_cons, List.foldl_cons, fill_rename (h ▸ mirrors)]
        exact ih _ h
  rw [ofTokens, ofTokens, List.length_map, ← blank_rename]
  exact run _ _ rfl

/-- Under a rule set that mirrors another, a sentence has the mirrored chart, or none. -/
theorem parse_eq_map_rename (mirrors : RuleSet.Mirrors f g tokens rules others) :
    parse others (tokens.map g) = (parse rules tokens).map (rename f g) := by
  by_cases words : tokens = []
  · subst words
    rfl
  · rw [parse_of_ne_nil words, parse_of_ne_nil (by simpa using words), ofTokens_rename mirrors]
    rfl

end Chart

/-- **Names are opaque.**  Under renamed rules the renamed sentence has the renamed chart: its words
and the labels of its nodes have changed, and no cell, no id, no span and no child has.  The two
maps need only be injective, so a word may come to be spelled like a nonterminal, and any character
may stand in a name. -/
theorem parse_rename (f : Nonterminal → Nonterminal) (g : Word → Word)
    (hf : Function.Injective f) (hg : Function.Injective g) (inserted : List Rule)
    (tokens : List Word) :
    Chart.parse (.ofList (inserted.map (Rule.rename f g))) (tokens.map g) =
      (Chart.parse (.ofList inserted) tokens).map (Chart.rename f g) :=
  Chart.parse_eq_map_rename (RuleSet.mirrors_rename hf hg inserted tokens)

/-! Two maps under which a nonterminal, a word and a pair of nonterminals with a space between them
are all spelled alike -/

def spaced : List Rule := [⟨⟨"S"⟩, .binary ⟨"A"⟩ ⟨"A"⟩⟩, ⟨⟨"A"⟩, .lexical " A"⟩]

def spacedName (symbol : Nonterminal) : Nonterminal := ⟨symbol.name ++ " A"⟩

def spacedWord (word : Word) : Word := "A" ++ word

/-- The renamed sentence is derived just as the sentence is. -/
theorem parse_rename_spaced :
    Function.Injective spacedName ∧ Function.Injective spacedWord ∧
      (spacedName ⟨"A"⟩).name = "A A" ∧ [" A", " A"].map spacedWord = ["A A", "A A"] ∧
      ∃ c, Chart.parse (.ofList spaced) [" A", " A"] = .ok c ∧ c.derives ⟨"S"⟩ = true ∧
        Chart.parse (.ofList (spaced.map (Rule.rename spacedName spacedWord))) ["A A", "A A"] =
          .ok (c.rename spacedName spacedWord) := by
  have names : Function.Injective spacedName := by
    rintro ⟨one⟩ ⟨two⟩ same
    simpa [spacedName] using same
  have texts : Function.Injective spacedWord := by
    intro one two same
    simpa [spacedWord] using same
  have words : [" A", " A"] ≠ [] := by decide
  have parsed := @Chart.parse_of_ne_nil (.ofList spaced) _ words
  have renamed := parse_rename spacedName spacedWord names texts spaced [" A", " A"]
  rw [parsed] at renamed
  refine ⟨names, texts, by decide, by decide, _, parsed, ?_, renamed⟩
  rw [Chart.derives_iff_exists_parse words]
  refine ⟨.branch ⟨"S"⟩ (.leaf ⟨"A"⟩ " A") (.leaf ⟨"A"⟩ " A"), ?_⟩
  rw [Chart.mem_parses_iff words (RuleSet.indexed_ofList spaced)]
  simp [Tree.words, Tree.IsDerivation, Tree.label, RuleSet.mem_toList_ofList, spaced]

end PhraseChart
