/-
# PhraseChart.Proofs.Chart.Layout -- how a finished chart is laid out

The cells of a chart and the nodes of its forest are two orders of the same things.  `LaidOut`
says so of a chart under way:

* the cells that are done, read in the order of filling, hold the ids of the forest one after
  another, so no node is missing, left over or in two cells (`ids`);
* each of these cells holds the nodes that its parts call for (`nodes`), which are read off the
  chart as it is now and not as it was when the cell was filled.

Filling the next cell keeps this (`LaidOut.fill`): the nodes of a cell depend on shorter cells
only, and those stay as they are (`nodesOver_fill`).  What a node looks like then follows for the
finished chart: where its span lies, by induction on the length of the span (`span_of_mem_ids`), and
at which place the span is split, because a child has one span only.

`parse_laidOut` collects what this says about a parse.
-/
import PhraseChart.Proofs.Chart.Exactness

namespace PhraseChart

set_option autoImplicit false

theorem Node.eq_of_span {one two : Node} (span : one.span = two.span)
    (label : one.label = two.label) (children : one.children? = two.children?) : one = two := by
  cases one <;> cases two <;> simp_all [Node.span, Node.label, Node.children?]

namespace Chart

variable {rules : RuleSet} {tokens : List Word} {c : Chart} {span : Span} {first last : Nat}
  {id : NodeId} {node : Node}

/-! ## One cell -/

/-- Filling a cell does not change what the cells of its own length or less call for. -/
theorem nodesOver_fill (known : c.CellsKnown) {other : Span}
    (h : other.last - other.first ≤ span.last - span.first) :
    nodesOver rules (fill rules c span) other = nodesOver rules c other := by
  have base := isStartOf_fill rules known span
  unfold nodesOver
  split
  · rfl
  · apply List.flatMap_congr
    intro split member
    obtain ⟨low, high⟩ := mem_splits.1 member
    rw [ids_fill_ne (by omega), ids_fill_ne (by omega),
      base.branchesAmong_eq (known other.first split) (known (split + 1) other.last)]

/-- The done cells hold the ids of the forest in their order, and the nodes that they should. -/
structure LaidOut (rules : RuleSet) (tokens : List Word) (done : List Span) (c : Chart) : Prop
    extends Filled rules tokens done c where
  ids : done.flatMap (fun span => c.ids span.first span.last) =
    (List.range c.forest.size).map NodeId.mk
  nodes : ∀ span ∈ done, (c.ids span.first span.last).map c.node? =
    (nodesOver rules c span).map some

theorem laidOut_blank (rules : RuleSet) (tokens : List Word) :
    LaidOut rules tokens [] (blank tokens) where
  toFilled := filled_blank rules tokens
  ids := rfl
  nodes := by simp

/-- **One step.**  Filling the next cell puts the next ids into it and disturbs no other. -/
theorem LaidOut.fill {done rest : List Span} (h : LaidOut rules tokens done c)
    (order : spans tokens.length = done ++ span :: rest) :
    LaidOut rules tokens (done ++ [span]) (fill rules c span) := by
  obtain ⟨ordered, inside⟩ := mem_spans.1 (show span ∈ spans tokens.length by simp [order])
  have within : span.last < c.cells.side := by rwa [h.side_eq]
  have base := isStartOf_fill rules h.known span
  have added := fill_adds rules h.known ordered within
  have earlier : ∀ other ∈ done, other.Before span := by
    have sorted := pairwise_spans tokens.length
    rw [order, List.pairwise_append] at sorted
    exact fun other isDone => sorted.2.2 other isDone span (by simp)
  have kept : ∀ other ∈ done, (Chart.fill rules c span).ids other.first other.last =
      c.ids other.first other.last := by
    intro other isDone
    have := earlier other isDone
    rw [Span.Before] at this
    exact ids_fill_ne (by omega)
  refine ⟨h.toFilled.fill ordered inside (parts_mem_of_order order), ?_, ?_⟩
  · have newIds : (Chart.fill rules c span).ids span.first span.last = c.forest.nextIds _ :=
      added.ids
    have size : (Chart.fill rules c span).forest.size = _ := added.size_eq
    rw [List.flatMap_append, List.flatMap_congr kept, h.ids, List.flatMap_singleton, newIds, size,
      Forest.nextIds, ← List.map_append, List.range_eq_range', List.range_eq_range',
      ← List.range'_append_1, Nat.zero_add]
  · intro other member
    rcases List.mem_append.1 member with isDone | isNew
    · have := earlier other isDone
      rw [Span.Before] at this
      rw [kept other isDone, nodesOver_fill h.known (by omega), ← h.nodes other isDone]
      exact List.map_congr_left fun id inCell => base.get?_eq (h.known _ _ id inCell)
    · obtain rfl := List.mem_singleton.1 isNew
      rw [nodesOver_fill h.known (Nat.le_refl _)]
      exact added.map_get?

/-- **A whole run.** -/
theorem laidOut_ofTokens (rules : RuleSet) (tokens : List Word) :
    LaidOut rules tokens (spans tokens.length) (ofTokens rules tokens) :=
  ofTokens_induction (laidOut_blank rules tokens) fun _ _ _ _ order h => h.fill order

/-! ## The nodes of a cell -/

theorem inside_of_mem_ids (member : id ∈ c.ids first last) :
    first ≤ last ∧ last < c.cells.side := by
  by_contra outside
  rw [ids, idsIn, Triangle.get?_eq_none outside] at member
  simp at member

theorem mem_nodesOver_word {position : Nat} :
    node ∈ nodesOver rules c ⟨position, position⟩ ↔
      ∃ word, c.tokens[position]? = some word ∧
        ∃ label ∈ rules.heads (.lexical word), node = .leaf label position := by
  rw [nodesOver, if_pos rfl]
  cases c.tokens[position]? <;> simp [eq_comm]

theorem mem_nodesOver_phrase (longer : first < last) :
    node ∈ nodesOver rules c ⟨first, last⟩ ↔
      ∃ split, (first ≤ split ∧ split < last) ∧
        ∃ left ∈ c.ids first split, ∃ right ∈ c.ids (split + 1) last,
          ∃ l r, c.node? left = some l ∧ c.node? right = some r ∧
            ∃ label ∈ rules.heads (.binary l.label r.label),
              node = .above label left right l.span r.span := by
  rw [nodesOver, if_neg (Nat.ne_of_lt longer)]
  simp only [branchesAmong, List.mem_flatMap, mem_splits, mem_branchesOver, node?]

theorem exists_mem_nodesOver (member : id ∈ (ofTokens rules tokens).ids first last) :
    ∃ node ∈ nodesOver rules (ofTokens rules tokens) ⟨first, last⟩,
      (ofTokens rules tokens).node? id = some node := by
  obtain ⟨ordered, inside⟩ := inside_of_mem_ids member
  rw [side_ofTokens] at inside
  have isNode := List.mem_map_of_mem (f := (ofTokens rules tokens).node?) member
  rw [(laidOut_ofTokens rules tokens).nodes ⟨first, last⟩ (mem_spans.2 ⟨ordered, inside⟩)] at isNode
  obtain ⟨node, isOver, same⟩ := List.mem_map.1 isNode
  exact ⟨node, isOver, same.symm⟩

/-- **A node stands in the cell of its span.** -/
theorem span_of_mem_ids (member : id ∈ (ofTokens rules tokens).ids first last)
    (found : (ofTokens rules tokens).node? id = some node) : node.span = ⟨first, last⟩ := by
  induction extent : last - first using Nat.strongRecOn generalizing first last id node with
  | _ extent ih =>
      obtain ⟨_, isOver, found'⟩ := exists_mem_nodesOver member
      obtain rfl := Option.some.inj (found.symm.trans found')
      rcases Nat.eq_or_lt_of_le (inside_of_mem_ids member).1 with rfl | longer
      · obtain ⟨_, -, label, -, rfl⟩ := mem_nodesOver_word.1 isOver
        rfl
      · obtain ⟨split, ⟨low, high⟩, left, inLeft, right, inRight, l, r, foundLeft, foundRight,
          label, -, rfl⟩ := (mem_nodesOver_phrase longer).1 isOver
        have leftSpan := ih (split - first) (by omega) inLeft foundLeft rfl
        have rightSpan := ih (last - (split + 1)) (by omega) inRight foundRight rfl
        rw [Node.above, Node.span, leftSpan, rightSpan]

/-- No node stands in two cells. -/
theorem span_unique {first' last' : Nat} (member : id ∈ (ofTokens rules tokens).ids first last)
    (other : id ∈ (ofTokens rules tokens).ids first' last') : first = first' ∧ last = last' := by
  obtain ⟨node, -, found⟩ := exists_mem_nodesOver member
  have same := (span_of_mem_ids member found).symm.trans (span_of_mem_ids other found)
  exact ⟨congrArg Span.first same, congrArg Span.last same⟩

/-- What a node in the cell of a span is made of. -/
inductive Built (c : Chart) (rules : RuleSet) (span : Span) (id : NodeId) : Node → Prop
  | leaf {label : Nonterminal} {word : Word} : span.first = span.last →
      c.tokens[span.first]? = some word → ⟨label, .lexical word⟩ ∈ rules.toList →
      Built c rules span id (.leaf label span.first)
  | branch {label : Nonterminal} {left right : NodeId} {l r : Node} : span.first < span.last →
      left.index < id.index → right.index < id.index →
      c.node? left = some l → c.node? right = some r →
      ⟨label, .binary l.label r.label⟩ ∈ rules.toList →
      (∃! split, (span.first ≤ split ∧ split < span.last) ∧
        left ∈ c.ids span.first split ∧ right ∈ c.ids (split + 1) span.last) →
      Built c rules span id (.branch label span left right)

/-- **Every id of a cell names a node over its span, built from shorter cells by a rule.** -/
theorem exists_built (indexed : rules.Indexed)
    (member : id ∈ (ofTokens rules tokens).ids span.first span.last) :
    ∃ node, (ofTokens rules tokens).node? id = some node ∧ node.span = span ∧
      (ofTokens rules tokens).Built rules span id node := by
  obtain ⟨first, last⟩ := span
  obtain ⟨node, isOver, found⟩ := exists_mem_nodesOver member
  have isSpan := span_of_mem_ids member found
  refine ⟨node, found, isSpan, ?_⟩
  rcases Nat.eq_or_lt_of_le (inside_of_mem_ids member).1 with same | longer
  · obtain rfl : first = last := same
    obtain ⟨word, isWord, label, isHead, rfl⟩ := mem_nodesOver_word.1 isOver
    exact .leaf rfl isWord (indexed.mem_heads.1 isHead)
  · obtain ⟨split, bounds, left, inLeft, right, inRight, l, r, foundLeft, foundRight, label,
      isHead, rfl⟩ := (mem_nodesOver_phrase longer).1 isOver
    obtain ⟨leftBelow, rightBelow⟩ := (ofTokens rules tokens).forest.children_lt id.index _ found
      left right rfl
    rw [Node.above, Node.span] at isSpan
    rw [Node.above, isSpan]
    refine .branch longer leftBelow rightBelow foundLeft foundRight (indexed.mem_heads.1 isHead)
      ⟨split, ⟨bounds, inLeft, inRight⟩, ?_⟩
    rintro other ⟨-, inLeft', -⟩
    exact (span_unique inLeft' inLeft).2

/-! ## No node twice -/

/-- The label and the children of a node. -/
def shape? (c : Chart) (id : NodeId) : Option (Nonterminal × Option (NodeId × NodeId)) :=
  (c.node? id).map fun node => (node.label, node.children?)

/-- Nodes of one cell with the same label and children expand to the same tree, and no tree stands
twice in a cell. -/
theorem nodup_shapes (indexed : rules.Indexed) (ordered : first ≤ last)
    (inside : last < tokens.length) :
    (((ofTokens rules tokens).ids first last).map (ofTokens rules tokens).shape?).Nodup := by
  have distinct : (((ofTokens rules tokens).ids first last).map
      (ofTokens rules tokens).tree?).Nodup := by
    rw [map_tree?_ids ordered inside]
    exact (nodup_derivations indexed ordered inside).map fun _ _ => Option.some.inj
  refine (List.Nodup.of_map _ distinct).map_on fun one inOne two inTwo sameShape => ?_
  refine List.inj_on_of_nodup_map distinct inOne inTwo ?_
  obtain ⟨nodeOne, -, foundOne⟩ := exists_mem_nodesOver inOne
  obtain ⟨nodeTwo, -, foundTwo⟩ := exists_mem_nodesOver inTwo
  obtain ⟨label, children⟩ : nodeOne.label = nodeTwo.label ∧
      nodeOne.children? = nodeTwo.children? := by
    simpa [shape?, foundOne, foundTwo] using sameShape
  have span := (span_of_mem_ids inOne foundOne).trans (span_of_mem_ids inTwo foundTwo).symm
  obtain rfl := Node.eq_of_span span label children
  rw [node?] at foundOne foundTwo
  rw [tree?, tree?, Forest.tree?_eq_bind, Forest.tree?_eq_bind, foundOne, foundTwo]

/-! ## All cells -/

theorem map_fst_allCells (rules : RuleSet) (tokens : List Word) :
    (ofTokens rules tokens).allCells.map Prod.fst = spans tokens.length := by
  rw [allCells, size, tokens_ofTokens, List.map_map]
  exact List.map_id _

/-- The cells in their order hold the ids in theirs. -/
theorem flatMap_snd_allCells (rules : RuleSet) (tokens : List Word) :
    (ofTokens rules tokens).allCells.flatMap Prod.snd =
      (List.range (ofTokens rules tokens).forest.size).map NodeId.mk := by
  rw [allCells, size, tokens_ofTokens, List.flatMap_map]
  exact (laidOut_ofTokens rules tokens).ids

theorem mem_allCells {cell : List NodeId} :
    (span, cell) ∈ (ofTokens rules tokens).allCells ↔
      (span.first ≤ span.last ∧ span.last < tokens.length) ∧
        cell = (ofTokens rules tokens).ids span.first span.last := by
  simp only [allCells, size, tokens_ofTokens, List.mem_map, mem_spans, Prod.mk.injEq]
  constructor
  · rintro ⟨_, bounds, rfl, rfl⟩
    exact ⟨bounds, rfl⟩
  · rintro ⟨bounds, rfl⟩
    exact ⟨span, bounds, rfl, rfl⟩

end Chart

/-- **A finished chart is laid out without gap, loss or sharing.**  Its spans are all pairs of
positions in their order, each once; its cells in that order hold the ids of the forest one after
another.  A cell holds nodes over its span, each built from words or shorter cells by a rule, and
no two with the same label and the same children. -/
theorem parse_laidOut (inserted : List Rule) (tokens : List Word) (words : tokens ≠ []) :
    ∃ c, Chart.parse (.ofList inserted) tokens = .ok c ∧ c.tokens = tokens ∧
      (∀ span, span ∈ c.allCells.map Prod.fst ↔
        span.first ≤ span.last ∧ span.last < tokens.length) ∧
      (c.allCells.map Prod.fst).Pairwise Span.Before ∧ (c.allCells.map Prod.fst).Nodup ∧
      c.allCells.flatMap Prod.snd = (List.range c.forest.size).map NodeId.mk ∧
      ∀ span cell, (span, cell) ∈ c.allCells →
        c.cell? span.first span.last = some cell ∧
        (∀ id ∈ cell, ∃ node, c.node? id = some node ∧ node.span = span ∧
          c.Built (.ofList inserted) span id node) ∧
        (cell.map c.shape?).Nodup := by
  have indexed := RuleSet.indexed_ofList inserted
  refine ⟨_, Chart.parse_of_ne_nil words, Chart.tokens_ofTokens _ tokens, ?_, ?_, ?_,
    Chart.flatMap_snd_allCells _ tokens, ?_⟩
  · intro span
    rw [Chart.map_fst_allCells, Chart.mem_spans]
  · rw [Chart.map_fst_allCells]
    exact Chart.pairwise_spans _
  · rw [Chart.map_fst_allCells]
    exact Chart.nodup_spans _
  · intro span cell isCell
    obtain ⟨⟨ordered, inside⟩, rfl⟩ := Chart.mem_allCells.1 isCell
    exact ⟨Chart.cell?_ofTokens ordered inside, fun id => Chart.exists_built indexed,
      Chart.nodup_shapes indexed ordered inside⟩

/-- The span of three words has a cell, with a node that has two children. -/
theorem parse_laidOut_pairing :
    ["a", "a", "a"] ≠ [] ∧
      ∃ (c : Chart) (cell : List NodeId) (id : NodeId) (node : Node),
        Chart.parse (.ofList pairing) ["a", "a", "a"] = .ok c ∧
        c.allCells.flatMap Prod.snd = (List.range c.forest.size).map NodeId.mk ∧
        (⟨0, 2⟩, cell) ∈ c.allCells ∧ id ∈ cell ∧ c.node? id = some node ∧
        c.Built (.ofList pairing) ⟨0, 2⟩ id node ∧ (cell.map c.shape?).Nodup := by
  have words : ["a", "a", "a"] ≠ [] := by decide
  obtain ⟨c, parsed, -, -, -, -, numbered, cells⟩ := parse_laidOut pairing _ words
  obtain rfl := Except.ok.inj ((Chart.parse_of_ne_nil words).symm.trans parsed)
  have isCell : ((⟨0, 2⟩ : Span), (Chart.ofTokens (.ofList pairing) ["a", "a", "a"]).ids 0 2) ∈
      (Chart.ofTokens (.ofList pairing) ["a", "a", "a"]).allCells :=
    Chart.mem_allCells.2 ⟨by decide, rfl⟩
  obtain ⟨-, built, distinct⟩ := cells _ _ isCell
  have isTree : Tree.branch ⟨"S"⟩ (.leaf ⟨"S"⟩ "a") (.branch ⟨"S"⟩ (.leaf ⟨"S"⟩ "a")
      (.leaf ⟨"S"⟩ "a")) ∈ derivations (.ofList pairing) ["a", "a", "a"] 0 2 := by
    rw [mem_derivations_iff (RuleSet.indexed_ofList pairing) (by decide) (by decide)]
    simp [Tree.words, wordsOf, Tree.IsDerivation, Tree.label, RuleSet.mem_toList_ofList, pairing]
  have expanded := List.mem_map_of_mem (f := some) isTree
  rw [← Chart.map_tree?_ids (by decide) (by decide)] at expanded
  obtain ⟨id, inCell, -⟩ := List.mem_map.1 expanded
  obtain ⟨node, found, -, isBuilt⟩ := built id inCell
  exact ⟨words, _, _, id, node, parsed, numbered, isCell, inCell, found, isBuilt, distinct⟩

end PhraseChart
