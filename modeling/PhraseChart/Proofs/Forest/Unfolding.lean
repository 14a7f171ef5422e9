/-
# PhraseChart.Proofs.Forest.Unfolding -- the tree that an id stands for

An id stands for the tree of the nodes below it.  Without words this is a `Shape`, with positions in
place of the words; a forest has one for each id that it knows (`exists_hasShape`), since children
stand before their parents.  Three things are said of it:

* the tree of an id is its shape with the words filled in, unless a leaf lies beyond the words
  (`HasShape.tree?_of_reached`);
* the positions of the shape are those of the leaves that can be reached by going from parents to
  children (`HasShape.mem_positions_iff`);
* the span of a node goes from the first position to the last, if every branch has taken its span
  from its children (`HasShape.span_eq`).

The last condition is `Forest.Spanned`.  A forest may be built with wrong spans, so it is not a
matter of its type; every call that lets a forest grow keeps it, and keeps the old nodes
(`Growth.growsTo_perform`), also when the call fails halfway.

Expanding recurses on ids.  `Expands` spells the steps of this recursion out for any list of nodes,
where it need not end; over the nodes of a forest it ends for every id (`expands_iff`).
-/
import Mathlib.Logic.Relation
import PhraseChart.Proofs.Forest.Joining

namespace PhraseChart

set_option autoImplicit false

/-! ## Shapes -/

/-- A tree with the positions of words at its leaves. -/
inductive Shape where
  | leaf (label : Nonterminal) (position : Nat)
  | branch (label : Nonterminal) (left right : Shape)
deriving DecidableEq, Repr

namespace Shape

/-- The positions at the leaves, from left to right. -/
def positions : Shape → List Nat
  | .leaf _ position => [position]
  | .branch _ left right => left.positions ++ right.positions

/-- The tree with the words at these positions; where there is none, the word is empty. -/
def fill (words : List Word) : Shape → Tree
  | .leaf label position => .leaf label (words.getD position "")
  | .branch label left right => .branch label (left.fill words) (right.fill words)

variable {words : List Word}

theorem positions_ne_nil (shape : Shape) : shape.positions ≠ [] := by
  induction shape with
  | leaf => simp [positions]
  | branch _ _ _ left _ => simp [positions, left]

theorem words_fill {shape : Shape} (reached : ∀ position ∈ shape.positions, position < words.length) :
    (shape.fill words).words.map some = shape.positions.map fun position => words[position]? := by
  induction shape with
  | leaf label position =>
      have inside := reached position (by simp [positions])
      simp [fill, Tree.words, positions, inside]
  | branch label left right ihLeft ihRight =>
      simp only [positions, List.forall_mem_append] at reached
      rw [fill, Tree.words, positions, List.map_append, List.map_append, ihLeft reached.1,
        ihRight reached.2]

end Shape

namespace Forest

variable {f g : Forest} {words : List Word} {id left right : NodeId} {shape other : Shape}
  {label : Nonterminal} {span : Span} {position : Nat}

/-- The nodes below an id have this shape. -/
inductive HasShape (f : Forest) : NodeId → Shape → Prop
  | leaf {id : NodeId} {label : Nonterminal} {position : Nat} :
      f.get? id = some (.leaf label position) → HasShape f id (.leaf label position)
  | branch {id left right : NodeId} {label : Nonterminal} {span : Span} {l r : Shape} :
      f.get? id = some (.branch label span left right) → HasShape f left l → HasShape f right r →
      HasShape f id (.branch label l r)

theorem exists_hasShape (known : id.index < f.size) : ∃ shape, f.HasShape id shape := by
  -- Children have smaller ids, as for `IsStartOf.tree?_eq`.
  induction place : id.index using Nat.strongRecOn generalizing id with
  | _ place ih =>
      obtain ⟨node, found⟩ := exists_get? known
      cases node with
      | leaf label position => exact ⟨_, .leaf found⟩
      | branch label span left right =>
          obtain ⟨⟨leftBelow, leftKnown⟩, rightBelow, rightKnown⟩ := children_known found
          obtain ⟨l, hasLeft⟩ := ih left.index (by omega) leftKnown rfl
          obtain ⟨r, hasRight⟩ := ih right.index (by omega) rightKnown rfl
          exact ⟨_, .branch found hasLeft hasRight⟩

theorem HasShape.unique (h : f.HasShape id shape) (h' : f.HasShape id other) : shape = other := by
  induction h generalizing other with
  | leaf found =>
      cases h' with
      | leaf found' =>
          cases found.symm.trans found'
          rfl
      | branch found' => cases found.symm.trans found'
  | branch found _ _ ihLeft ihRight =>
      cases h' with
      | leaf found' => cases found.symm.trans found'
      | branch found' hasLeft hasRight =>
          cases found.symm.trans found'
          rw [ihLeft hasLeft, ihRight hasRight]

/-- **The tree of an id is its shape with the words filled in**, if the words reach every leaf. -/
theorem HasShape.tree?_of_reached (h : f.HasShape id shape)
    (reached : ∀ position ∈ shape.positions, position < words.length) :
    f.tree? words id = some (shape.fill words) := by
  induction h with
  | @leaf id label position found =>
      have inside := reached position (by simp [Shape.positions])
      simp [tree?_of_leaf found, Shape.fill, inside]
  | branch found _ _ ihLeft ihRight =>
      simp only [Shape.positions, List.forall_mem_append] at reached
      rw [tree?_of_branch found, ihLeft reached.1, ihRight reached.2]
      rfl

/-- A leaf beyond the words leaves every id above it without a tree. -/
theorem HasShape.tree?_of_beyond (h : f.HasShape id shape) (inside : position ∈ shape.positions)
    (beyond : words.length ≤ position) : f.tree? words id = none := by
  induction h with
  | leaf found =>
      obtain rfl := List.mem_singleton.1 inside
      rw [tree?_of_leaf found, List.getElem?_eq_none beyond, Option.map_none]
  | branch found _ _ ihLeft ihRight =>
      rw [tree?_of_branch found]
      rcases List.mem_append.1 inside with onTheLeft | onTheRight
      · rw [ihLeft onTheLeft, Option.bind_none]
      · simp [ihRight onTheRight]

/-! ### Leaves below an id -/

def IsChild (f : Forest) (parent child : NodeId) : Prop :=
  ∃ label span left right, f.get? parent = some (.branch label span left right) ∧
    (child = left ∨ child = right)

/-- Going from parents to children leads from the id to a leaf at this position. -/
def HasLeaf (f : Forest) (id : NodeId) (position : Nat) : Prop :=
  ∃ leaf label, Relation.ReflTransGen f.IsChild id leaf ∧
    f.get? leaf = some (.leaf label position)

theorem hasLeaf_of_leaf {there : Nat} (found : f.get? id = some (.leaf label there)) :
    f.HasLeaf id position ↔ position = there := by
  constructor
  · rintro ⟨leaf, label', way, isLeaf⟩
    rcases Relation.ReflTransGen.cases_head way with rfl | ⟨child, isChild, -⟩
    · cases found.symm.trans isLeaf
      rfl
    · obtain ⟨_, _, _, _, found', -⟩ := isChild
      cases found.symm.trans found'
  · rintro rfl
    exact ⟨id, label, .refl, found⟩

theorem hasLeaf_of_branch (found : f.get? id = some (.branch label span left right)) :
    f.HasLeaf id position ↔ f.HasLeaf left position ∨ f.HasLeaf right position := by
  constructor
  · rintro ⟨leaf, label', way, isLeaf⟩
    rcases Relation.ReflTransGen.cases_head way with rfl | ⟨child, isChild, further⟩
    · cases found.symm.trans isLeaf
    · obtain ⟨_, _, _, _, found', isEither⟩ := isChild
      cases found.symm.trans found'
      rcases isEither with rfl | rfl
      · exact .inl ⟨leaf, label', further, isLeaf⟩
      · exact .inr ⟨leaf, label', further, isLeaf⟩
  · rintro (⟨leaf, label', way, isLeaf⟩ | ⟨leaf, label', way, isLeaf⟩)
    · exact ⟨leaf, label', way.head ⟨_, _, _, _, found, .inl rfl⟩, isLeaf⟩
    · exact ⟨leaf, label', way.head ⟨_, _, _, _, found, .inr rfl⟩, isLeaf⟩

theorem HasShape.mem_positions_iff (h : f.HasShape id shape) :
    position ∈ shape.positions ↔ f.HasLeaf id position := by
  induction h with
  | leaf found => rw [hasLeaf_of_leaf found, Shape.positions, List.mem_singleton]
  | branch found _ _ ihLeft ihRight =>
      rw [hasLeaf_of_branch found, Shape.positions, List.mem_append, ihLeft, ihRight]

/-- **An id has no tree just when the forest lacks it or a leaf below it lies beyond the words.** -/
theorem tree?_eq_none_iff :
    f.tree? words id = none ↔
      f.size ≤ id.index ∨ ∃ position, f.HasLeaf id position ∧ words.length ≤ position := by
  by_cases known : id.index < f.size
  · obtain ⟨shape, hasShape⟩ := exists_hasShape known
    rw [or_iff_right (Nat.not_le.2 known)]
    constructor
    · intro none
      by_contra reached
      have inReach : ∀ position ∈ shape.positions, position < words.length := by
        intro position inside
        by_contra beyond
        exact reached ⟨position, hasShape.mem_positions_iff.1 inside, Nat.not_lt.1 beyond⟩
      rw [hasShape.tree?_of_reached inReach] at none
      cases none
    · rintro ⟨position, below, beyond⟩
      exact hasShape.tree?_of_beyond (hasShape.mem_positions_iff.2 below) beyond
  · have missing : f.get? id = none := Array.getElem?_eq_none_iff.2 (Nat.not_lt.1 known)
    exact iff_of_true (tree?_of_get?_none missing) (.inl (Nat.not_lt.1 known))

/-! ### The recursion on ids -/

/-- A run of the expansion of an id over any list of nodes, and its result. -/
inductive Expands (nodes : List Node) (words : List Word) : NodeId → Option Tree → Prop
  | unknown {id : NodeId} : nodes[id.index]? = none → Expands nodes words id none
  | leaf {id : NodeId} {label : Nonterminal} {position : Nat} :
      nodes[id.index]? = some (.leaf label position) →
      Expands nodes words id ((words[position]?).map (Tree.leaf label))
  | noLeft {id left right : NodeId} {label : Nonterminal} {span : Span} :
      nodes[id.index]? = some (.branch label span left right) → Expands nodes words left none →
      Expands nodes words id none
  | noRight {id left right : NodeId} {label : Nonterminal} {span : Span} {l : Tree} :
      nodes[id.index]? = some (.branch label span left right) →
      Expands nodes words left (some l) → Expands nodes words right none →
      Expands nodes words id none
  | branch {id left right : NodeId} {label : Nonterminal} {span : Span} {l r : Tree} :
      nodes[id.index]? = some (.branch label span left right) →
      Expands nodes words left (some l) → Expands nodes words right (some r) →
      Expands nodes words id (some (.branch label l r))

theorem expands_tree? (f : Forest) (words : List Word) (id : NodeId) :
    Expands f.nodes.toList words id (f.tree? words id) := by
  induction place : id.index using Nat.strongRecOn generalizing id with
  | _ place ih =>
      cases found : f.get? id with
      | none =>
          rw [tree?_of_get?_none found]
          exact .unknown (f.get?_eq_toList id ▸ found)
      | some node =>
          have read : f.nodes.toList[id.index]? = some node := f.get?_eq_toList id ▸ found
          cases node with
          | leaf label position =>
              rw [tree?_of_leaf found]
              exact .leaf read
          | branch label span left right =>
              obtain ⟨⟨leftBelow, -⟩, rightBelow, -⟩ := children_known found
              have hasLeft := ih left.index (by omega) left rfl
              have hasRight := ih right.index (by omega) right rfl
              rw [tree?_of_branch found]
              cases onLeft : f.tree? words left with
              | none => exact .noLeft read (onLeft ▸ hasLeft)
              | some l =>
                  cases onRight : f.tree? words right with
                  | none => exact .noRight read (onLeft ▸ hasLeft) (onRight ▸ hasRight)
                  | some r => exact .branch read (onLeft ▸ hasLeft) (onRight ▸ hasRight)

theorem tree?_of_expands {result : Option Tree} (h : Expands f.nodes.toList words id result) :
    result = f.tree? words id := by
  have get?_of {id : NodeId} {node : Option Node} (read : f.nodes.toList[id.index]? = node) :
      f.get? id = node := (f.get?_eq_toList id).trans read
  induction h with
  | unknown read => rw [tree?_of_get?_none (get?_of read)]
  | leaf read => rw [tree?_of_leaf (get?_of read)]
  | noLeft read _ ihLeft => rw [tree?_of_branch (get?_of read), ← ihLeft, Option.bind_none]
  | noRight read _ _ ihLeft ihRight =>
      rw [tree?_of_branch (get?_of read), ← ihLeft, Option.bind_some, ← ihRight, Option.map_none]
  | branch read _ _ ihLeft ihRight =>
      rw [tree?_of_branch (get?_of read), ← ihLeft, Option.bind_some, ← ihRight, Option.map_some]

/-- **Expanding an id ends, and with one result.** -/
theorem expands_iff {result : Option Tree} :
    Expands f.nodes.toList words id result ↔ result = f.tree? words id := by
  constructor
  · exact tree?_of_expands
  · rintro rfl
    exact expands_tree? f words id

/-! ## Spans -/

/-- Every branch takes its span from its children. -/
def Spanned (f : Forest) : Prop :=
  ∀ id label span left right, f.get? id = some (.branch label span left right) →
    ∃ l r, f.get? left = some l ∧ f.get? right = some r ∧ span = ⟨l.span.first, r.span.last⟩

/-- **The span of a node goes from its leftmost leaf to its rightmost.** -/
theorem HasShape.span_eq (spanned : f.Spanned) (h : f.HasShape id shape) :
    ∃ node, f.get? id = some node ∧ shape.positions.head? = some node.span.first ∧
      shape.positions.getLast? = some node.span.last := by
  induction h with
  | leaf found => exact ⟨_, found, rfl, rfl⟩
  | @branch id left right label span ls rs found _ _ ihLeft ihRight =>
      obtain ⟨l, r, foundLeft, foundRight, rfl⟩ := spanned _ _ _ _ _ found
      obtain ⟨l', foundLeft', first, -⟩ := ihLeft
      obtain ⟨r', foundRight', -, last⟩ := ihRight
      cases foundLeft.symm.trans foundLeft'
      cases foundRight.symm.trans foundRight'
      refine ⟨_, found, ?_, ?_⟩
      · rw [Shape.positions, List.head?_append_of_ne_nil _ ls.positions_ne_nil, first]
        rfl
      · rw [Shape.positions, List.getLast?_append_of_ne_nil _ rs.positions_ne_nil, last]
        rfl

/-- The forest has grown by appending nodes, and branches still take their spans from their
children. -/
structure GrowsTo (f g : Forest) : Prop where
  isStartOf : f.IsStartOf g
  spanned : f.Spanned → g.Spanned

theorem GrowsTo.refl (f : Forest) : f.GrowsTo f := ⟨.refl f, fun h => h⟩

theorem GrowsTo.trans {h : Forest} (hfg : f.GrowsTo g) (hgh : g.GrowsTo h) : f.GrowsTo h :=
  ⟨hfg.isStartOf.trans hgh.isStartOf, fun spanned => hgh.spanned (hfg.spanned spanned)⟩

/-- A node of a forest that has grown is an old one or a new one. -/
theorem Adds.get?_cases {new : List Node} {grown : List NodeId × Forest} (h : f.Adds new grown)
    {node : Node} (found : grown.2.get? id = some node) : f.get? id = some node ∨ node ∈ new := by
  have whole : grown.2.nodes = f.nodes ++ new.toArray := by
    apply Array.toList_inj.1
    rw [h.nodes, Array.toList_append]
  rw [get?, whole] at found
  exact (getElem?_append_cases found).imp_right And.right

theorem Adds.growsTo {new : List Node} {grown : List NodeId × Forest} (h : f.Adds new grown)
    (each : ∀ label span left right, Node.branch label span left right ∈ new →
      ∃ l r, f.get? left = some l ∧ f.get? right = some r ∧ span = ⟨l.span.first, r.span.last⟩) :
    f.GrowsTo grown.2 where
  isStartOf := h.isStartOf
  spanned spanned id label span left right found := by
    have below : ∃ l r, f.get? left = some l ∧ f.get? right = some r ∧
        span = ⟨l.span.first, r.span.last⟩ := by
      rcases h.get?_cases found with old | isNew
      · exact spanned _ _ _ _ _ old
      · exact each _ _ _ _ isNew
    obtain ⟨l, r, foundLeft, foundRight, same⟩ := below
    exact ⟨l, r, h.isStartOf.get? foundLeft, h.isStartOf.get? foundRight, same⟩

theorem growsTo_addLeaves (f : Forest) (labels : List Nonterminal) (position : Nat) :
    f.GrowsTo (f.addLeaves labels position).2 := by
  refine (adds_addLeaves f labels position).growsTo ?_
  simp

theorem growsTo_addBranches (labels : List Nonterminal) {l r : Node}
    (foundLeft : f.get? left = some l) (foundRight : f.get? right = some r) :
    f.GrowsTo (f.addBranches labels left right l.span r.span (lt_size_of_get? foundLeft)
      (lt_size_of_get? foundRight)).2 := by
  refine (adds_addBranches f labels left right l.span r.span _ _).growsTo ?_
  intro label span left' right' isNew
  obtain ⟨_, -, same⟩ := List.mem_map.1 isNew
  cases same
  exact ⟨l, r, foundLeft, foundRight, rfl⟩

theorem growsTo_of_addBranch? (h : f.addBranch? label left right = some (id, g)) : f.GrowsTo g := by
  unfold addBranch? at h
  split at h
  · rename_i l r foundLeft foundRight
    cases h
    exact growsTo_addBranches [label] foundLeft foundRight
  · cases h

theorem growsTo_join (rules : RuleSet) (left right : NodeId) (c : Composition) :
    c.forest.GrowsTo (c.join rules left right).forest := by
  cases stopped : c.stopped with
  | true =>
      rw [Composition.join_of_stopped stopped]
      exact .refl _
  | false =>
      cases foundLeft : c.forest.get? left with
      | none =>
          rw [Composition.join_of_get?_none stopped (.inl foundLeft)]
          exact .refl _
      | some l =>
          cases foundRight : c.forest.get? right with
          | none =>
              rw [Composition.join_of_get?_none stopped (.inr foundRight)]
              exact .refl _
          | some r =>
              rw [Composition.join_of_get? stopped foundLeft foundRight]
              exact growsTo_addBranches _ foundLeft foundRight

theorem growsTo_joinPairs (rules : RuleSet) (pairs : List (NodeId × NodeId)) (c : Composition) :
    c.forest.GrowsTo (c.joinPairs rules pairs).forest := by
  induction pairs generalizing c with
  | nil => exact .refl _
  | cons pair rest ih => exact (growsTo_join rules pair.1 pair.2 c).trans (ih _)

end Forest

/-! ## Calls -/

/-- A call that lets a forest grow. -/
inductive Growth where
  | leaf (label : Nonterminal) (position : Nat)
  | branch (label : Nonterminal) (left right : NodeId)
  | compose (rules : RuleSet) (lefts rights : List NodeId)

namespace Growth

/-- The forest after a call, which may have failed. -/
def perform (f : Forest) : Growth → Forest
  | .leaf label position => (f.addLeaf label position).2
  | .branch label left right =>
      match f.addBranch? label left right with
      | some (_, grown) => grown
      | none => f
  | .compose rules lefts rights => (f.compose rules lefts rights).2

/-- The forest after a sequence of calls, from the empty one on. -/
def performAll (calls : List Growth) : Forest := calls.foldl perform .empty

/-- **One call** appends nodes, with right spans, and keeps the old ones. -/
theorem growsTo_perform (f : Forest) (call : Growth) : f.GrowsTo (perform f call) := by
  cases call with
  | leaf label position => exact f.growsTo_addLeaves [label] position
  | branch label left right =>
      simp only [perform]
      split
      · rename_i id grown added
        exact Forest.growsTo_of_addBranch? added
      · exact .refl f
  | compose rules lefts rights =>
      rw [perform, Forest.compose_eq]
      exact Forest.growsTo_joinPairs rules _ (.start f)

/-- **Any sequence of calls** does so. -/
theorem growsTo_foldl (f : Forest) (calls : List Growth) : f.GrowsTo (calls.foldl perform f) := by
  induction calls generalizing f with
  | nil => exact .refl f
  | cons call rest ih => exact (growsTo_perform f call).trans (ih _)

theorem spanned_performAll (calls : List Growth) : (performAll calls).Spanned := by
  refine (growsTo_foldl .empty calls).spanned ?_
  intro id label span left right found
  simp [Forest.empty, Forest.get?] at found

theorem growsTo_append (calls more : List Growth) :
    (performAll calls).GrowsTo (performAll (calls ++ more)) := by
  rw [performAll, performAll, List.foldl_append]
  exact growsTo_foldl _ more

/-- **Whatever calls have built a forest, an id stands for one tree and keeps it.**  Children have
smaller ids than their parents, each id has one shape, and the span of its node goes from the first
leaf of the shape to the last.  Further calls change neither the node nor the tree of an id.
Expanding an id ends.  It gives no tree just when the id is out of range or some leaf below it lies
beyond the words, and else the shape with the words at the positions of the leaves. -/
theorem performAll_unfolds (calls : List Growth) :
    (∀ id label span left right,
      (performAll calls).get? id = some (.branch label span left right) →
      left.index < id.index ∧ right.index < id.index) ∧
    (∀ id node, (performAll calls).get? id = some node →
      ∃ shape, (performAll calls).HasShape id shape ∧
        (∀ other, (performAll calls).HasShape id other → other = shape) ∧
        shape.positions.head? = some node.span.first ∧
        shape.positions.getLast? = some node.span.last) ∧
    (∀ more id, id.index < (performAll calls).size →
      (performAll (calls ++ more)).get? id = (performAll calls).get? id ∧
      ∀ words, (performAll (calls ++ more)).tree? words id = (performAll calls).tree? words id) ∧
    (∀ words id result, Forest.Expands (performAll calls).nodes.toList words id result ↔
      result = (performAll calls).tree? words id) ∧
    (∀ words id, (performAll calls).tree? words id = none ↔
      (performAll calls).size ≤ id.index ∨
        ∃ position, (performAll calls).HasLeaf id position ∧ words.length ≤ position) ∧
    ∀ words id tree, (performAll calls).tree? words id = some tree →
      ∃ shape, (performAll calls).HasShape id shape ∧ tree = shape.fill words ∧
        tree.words.map some = shape.positions.map fun position => words[position]? := by
  have spanned := spanned_performAll calls
  refine ⟨?_, ?_, ?_, fun words id result => Forest.expands_iff,
    fun words id => Forest.tree?_eq_none_iff, ?_⟩
  · intro id label span left right found
    have below := Forest.children_known found
    exact ⟨below.1.1, below.2.1⟩
  · intro id node found
    obtain ⟨shape, hasShape⟩ := Forest.exists_hasShape (Forest.lt_size_of_get? found)
    obtain ⟨node', found', first, last⟩ := hasShape.span_eq spanned
    cases found.symm.trans found'
    exact ⟨shape, hasShape, fun other hasOther => hasOther.unique hasShape, first, last⟩
  · intro more id known
    have base := (growsTo_append calls more).isStartOf
    exact ⟨base.get?_eq known, fun words => base.tree?_eq known⟩
  · intro words id tree expanded
    have known : id.index < (performAll calls).size := by
      by_contra unknown
      rw [Forest.tree?_eq_none_iff.2 (.inl (Nat.not_lt.1 unknown))] at expanded
      cases expanded
    obtain ⟨shape, hasShape⟩ := Forest.exists_hasShape known
    have reached : ∀ position ∈ shape.positions, position < words.length := by
      intro position inside
      by_contra beyond
      rw [hasShape.tree?_of_beyond inside (Nat.not_lt.1 beyond)] at expanded
      cases expanded
    obtain rfl := Option.some.inj ((hasShape.tree?_of_reached reached).symm.trans expanded)
    exact ⟨shape, hasShape, rfl, Shape.words_fill reached⟩

/-- A branch over an id that no node has, and a composition that fails at its third pair. -/
def failingCalls : List Growth :=
  [.leaf ⟨"A"⟩ 4, .branch ⟨"X"⟩ ⟨0⟩ ⟨3⟩,
    .compose (.ofList selfPairing) [⟨0⟩] [⟨0⟩, ⟨1⟩, ⟨7⟩]]

theorem nodes_failingCalls :
    (performAll failingCalls).nodes.toList =
      [.leaf ⟨"A"⟩ 4, .branch ⟨"S"⟩ ⟨4, 4⟩ ⟨0⟩ ⟨0⟩, .branch ⟨"T"⟩ ⟨4, 4⟩ ⟨0⟩ ⟨1⟩] := by
  obtain ⟨grown, answered, nodes⟩ := @Forest.compose_of_lacksOne (.ofList selfPairing)
    (Forest.empty.addLeaf ⟨"A"⟩ 4).2 _ ⟨0⟩ ⟨7⟩ _ [] [⟨0⟩] [⟨0⟩, ⟨1⟩, ⟨7⟩] rfl joins_selfPairing
    (.inr (by decide))
  have left : performAll failingCalls = grown := congrArg Prod.snd answered
  rw [left, nodes]
  rfl

theorem hasShape_failingCalls :
    (performAll failingCalls).HasShape ⟨2⟩
      (.branch ⟨"T"⟩ (.leaf ⟨"A"⟩ 4) (.branch ⟨"S"⟩ (.leaf ⟨"A"⟩ 4) (.leaf ⟨"A"⟩ 4))) := by
  have found (index : Nat) : (performAll failingCalls).get? ⟨index⟩ =
      [.leaf ⟨"A"⟩ 4, .branch ⟨"S"⟩ ⟨4, 4⟩ ⟨0⟩ ⟨0⟩, .branch ⟨"T"⟩ ⟨4, 4⟩ ⟨0⟩ ⟨1⟩][index]? := by
    rw [Forest.get?_eq_toList, nodes_failingCalls]
  have shared : (performAll failingCalls).HasShape ⟨0⟩ (.leaf ⟨"A"⟩ 4) := .leaf (found 0)
  exact .branch (found 2) shared (.branch (found 1) shared shared)

/-- What the failed call has left behind shares a leaf, and the tree of its last node shows this leaf
three times. -/
theorem performAll_unfolds_failing :
    (performAll failingCalls).get? ⟨2⟩ = some (.branch ⟨"T"⟩ ⟨4, 4⟩ ⟨0⟩ ⟨1⟩) ∧
      (0 < 2 ∧ 1 < 2) ∧
      (∃ shape, (performAll failingCalls).HasShape ⟨2⟩ shape ∧
        shape.positions.head? = some 4 ∧ shape.positions.getLast? = some 4) ∧
      2 < (performAll failingCalls).size ∧
      (performAll (failingCalls ++ [.leaf ⟨"B"⟩ 0])).get? ⟨2⟩ =
        (performAll failingCalls).get? ⟨2⟩ ∧
      (performAll failingCalls).tree? ["a", "b", "c", "d"] ⟨2⟩ = none ∧
      (performAll failingCalls).tree? ["a", "b", "c", "d", "e"] ⟨2⟩ =
        some (.branch ⟨"T"⟩ (.leaf ⟨"A"⟩ "e")
          (.branch ⟨"S"⟩ (.leaf ⟨"A"⟩ "e") (.leaf ⟨"A"⟩ "e"))) ∧
      ∃ shape, (performAll failingCalls).HasShape ⟨2⟩ shape ∧
        ["e", "e", "e"].map some =
          shape.positions.map fun position => ["a", "b", "c", "d", "e"][position]? := by
  obtain ⟨below, spans, keeps, -, fails, expands⟩ := performAll_unfolds failingCalls
  have hasShape := hasShape_failingCalls
  have found : (performAll failingCalls).get? ⟨2⟩ =
      some (.branch ⟨"T"⟩ ⟨4, 4⟩ ⟨0⟩ ⟨1⟩) := by
    rw [Forest.get?_eq_toList, nodes_failingCalls]
    rfl
  have expanded := @Forest.HasShape.tree?_of_reached _ ["a", "b", "c", "d", "e"] _ _ hasShape
    (by decide)
  have known := Forest.lt_size_of_get? found
  obtain ⟨shape, isShape, -, first, last⟩ := spans _ _ found
  obtain ⟨shape', isShape', -, leaves⟩ := expands _ _ _ expanded
  refine ⟨found, below _ _ _ _ _ found, ⟨shape, isShape, first, last⟩, known,
    (keeps [.leaf ⟨"B"⟩ 0] _ known).1, ?_, expanded, shape', isShape', leaves⟩
  exact (fails _ _).2 (.inr ⟨4, hasShape.mem_positions_iff.1 (by decide), by decide⟩)

end Growth

end PhraseChart
