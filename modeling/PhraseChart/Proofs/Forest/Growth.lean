/-
# PhraseChart.Proofs.Forest.Growth -- what the operations append to a forest

Every operation on a forest appends nodes and returns their ids.  `Adds f new grown`
says so with the appended nodes written out: the new forest is the old one
followed by `new`, and the ids are the next ones in order.  From it follow

* `Adds.map_get?`, `Adds.map_tree?`: the ids read back exactly the new nodes, and
  expand to the trees of the new nodes;
* `IsStartOf.tree?_eq`: an id that a forest knows expands to the same tree, or
  fails to expand, in every forest that this one has grown into;
* `Composition.joinAll_appends`: joining two lists of known ids appends one branch for each left
  id, each right id and each rule that rewrites to their labels, in that order.

The branches of a pair are read off the forest as it stood before the
composition (`branchesOver`), since an id keeps its node.
-/
import Mathlib.Data.List.Basic
import PhraseChart.Forest.Composition

namespace PhraseChart

set_option autoImplicit false

namespace Forest

variable {f g : Forest} {words : List Word} {id : NodeId}

/-! ## Expanding in a forest that has grown -/

/-- The tree of a node, wherever it stands, with the trees of its children read from
the forest. -/
def expand? (f : Forest) (words : List Word) : Node → Option Tree
  | .leaf label position => (words[position]?).map (Tree.leaf label)
  | .branch label _ left right =>
      (f.tree? words left).bind fun l => (f.tree? words right).map (Tree.branch label l)

theorem tree?_eq_bind (f : Forest) (words : List Word) (id : NodeId) :
    f.tree? words id = (f.get? id).bind (f.expand? words) := by
  cases found : f.get? id with
  | none => rw [tree?_of_get?_none found, Option.bind_none]
  | some node =>
      cases node with
      | leaf label position => rw [tree?_of_leaf found, Option.bind_some, expand?]
      | branch label span left right => rw [tree?_of_branch found, Option.bind_some, expand?]

theorem get?_eq_toList (f : Forest) (id : NodeId) : f.get? id = f.nodes.toList[id.index]? :=
  Array.getElem?_toList.symm

theorem exists_get? (h : id.index < f.size) : ∃ node, f.get? id = some node :=
  ⟨f.nodes[id.index], Array.getElem?_eq_getElem h⟩

theorem children_known {label : Nonterminal} {span : Span} {left right : NodeId}
    (found : f.get? id = some (.branch label span left right)) :
    (left.index < id.index ∧ left.index < f.size) ∧
      (right.index < id.index ∧ right.index < f.size) := by
  have below := f.children_lt id.index _ found left right rfl
  have inside := lt_size_of_get? found
  omega

/-- **An id that a forest knows means the same in every later forest**, also where
the words do not reach its leaves. -/
theorem IsStartOf.tree?_eq (h : f.IsStartOf g) (known : id.index < f.size) :
    g.tree? words id = f.tree? words id := by
  -- Children have smaller ids, so the induction is on the id and not on the tree.
  induction place : id.index using Nat.strongRecOn generalizing id with
  | _ place ih =>
      obtain ⟨node, found⟩ := exists_get? known
      have kept := h.get? found
      cases node with
      | leaf label position => rw [tree?_of_leaf found, tree?_of_leaf kept]
      | branch label span left right =>
          obtain ⟨⟨leftBelow, leftKnown⟩, rightBelow, rightKnown⟩ := children_known found
          rw [tree?_of_branch found, tree?_of_branch kept,
            ih left.index (by omega) leftKnown rfl, ih right.index (by omega) rightKnown rfl]

/-- The root of a tree carries the label of its node. -/
theorem exists_get?_of_tree? {tree : Tree} (h : f.tree? words id = some tree) :
    ∃ node, f.get? id = some node ∧ node.label = tree.label := by
  rw [tree?_eq_bind, Option.bind_eq_some_iff] at h
  obtain ⟨node, found, expanded⟩ := h
  refine ⟨node, found, ?_⟩
  cases node with
  | leaf label position =>
      obtain ⟨word, _, rfl⟩ := Option.map_eq_some_iff.1 expanded
      rfl
  | branch label span left right =>
      obtain ⟨l, _, expanded⟩ := Option.bind_eq_some_iff.1 expanded
      obtain ⟨r, _, rfl⟩ := Option.map_eq_some_iff.1 expanded
      rfl

/-! ## Appending -/

/-- The forest has grown by these nodes, and the ids are theirs. -/
structure Adds (f : Forest) (new : List Node) (grown : List NodeId × Forest) : Prop where
  nodes : grown.2.nodes.toList = f.nodes.toList ++ new
  ids : grown.1 = f.nextIds new.length

variable {new : List Node} {grown : List NodeId × Forest}

theorem Adds.isStartOf (h : Adds f new grown) : f.IsStartOf grown.2 := ⟨new, h.nodes.symm⟩

theorem Adds.size_eq (h : Adds f new grown) : grown.2.size = f.size + new.length := by
  have := congrArg List.length h.nodes
  rwa [Array.length_toList, List.length_append, Array.length_toList] at this

theorem nextIds_add (f : Forest) (m n : Nat) :
    f.nextIds (m + n) = f.nextIds m ++ (List.range' (f.size + m) n).map NodeId.mk := by
  rw [nextIds, nextIds, ← List.map_append, List.range'_append_1]

theorem adds_nil (f : Forest) : Adds f [] ([], f) := ⟨by simp, rfl⟩

theorem Adds.append {more : List Node} {later : List NodeId × Forest} (h : Adds f new grown)
    (next : Adds grown.2 more later) : Adds f (new ++ more) (grown.1 ++ later.1, later.2) where
  nodes := by rw [next.nodes, h.nodes, List.append_assoc]
  ids := by rw [next.ids, h.ids, List.length_append, nextIds_add, nextIds, ← h.size_eq, nextIds]

/-- What is added determines the forest that it leaves, and the ids. -/
theorem Adds.unique {other : List NodeId × Forest} (h : Adds f new grown)
    (h' : Adds f new other) : grown = other := by
  refine Prod.ext (h.ids.trans h'.ids.symm) (Forest.ext ?_)
  exact Array.toList_inj.1 (h.nodes.trans h'.nodes.symm)

/-- The new ids read the new nodes. -/
theorem Adds.map_get? (h : Adds f new grown) : grown.1.map grown.2.get? = new.map some := by
  rw [h.ids]
  apply List.ext_getElem?
  intro i
  have node (inside : i < new.length) : grown.2.get? ⟨f.size + i⟩ = new[i]? := by
    rw [get?_eq_toList, h.nodes, List.getElem?_append_right (by simp [size])]
    simp [size]
  by_cases inside : i < new.length
  · simp [nextIds, inside, node inside]
  · simp [nextIds, inside]

/-- The new ids expand to the trees of the new nodes. -/
theorem Adds.map_tree? (h : Adds f new grown) :
    grown.1.map (grown.2.tree? words) = new.map (grown.2.expand? words) := by
  calc grown.1.map (grown.2.tree? words)
      = (grown.1.map grown.2.get?).map fun node => node.bind (grown.2.expand? words) := by
        rw [List.map_map]
        exact List.map_congr_left fun id _ => tree?_eq_bind grown.2 words id
    _ = new.map (grown.2.expand? words) := by
        rw [h.map_get?, List.map_map]
        rfl

theorem adds_addLeaves (f : Forest) (labels : List Nonterminal) (position : Nat) :
    Adds f (labels.map fun label => Node.leaf label position) (f.addLeaves labels position) :=
  ⟨nodes_addLeaves f labels position, by simp [addLeaves]⟩

theorem adds_addBranches (f : Forest) (labels : List Nonterminal) (left right : NodeId)
    (leftSpan rightSpan : Span) (hLeft : left.index < f.size) (hRight : right.index < f.size) :
    Adds f (labels.map fun label => Node.above label left right leftSpan rightSpan)
      (f.addBranches labels left right leftSpan rightSpan hLeft hRight) :=
  ⟨nodes_addBranches f labels left right leftSpan rightSpan hLeft hRight, by simp [addBranches]⟩

end Forest

/-! ## Joining -/

/-- The branches over a pair of nodes, one for each rule that rewrites to their labels. -/
def branchesOver (rules : RuleSet) (f : Forest) (left right : NodeId) : List Node :=
  match f.get? left, f.get? right with
  | some l, some r =>
      (rules.heads (.binary l.label r.label)).map fun label =>
        Node.above label left right l.span r.span
  | _, _ => []

/-- The branches over all pairs of two lists, the left list outside. -/
def branchesAmong (rules : RuleSet) (f : Forest) (lefts rights : List NodeId) : List Node :=
  lefts.flatMap fun left => rights.flatMap (branchesOver rules f left)

variable {rules : RuleSet} {f : Forest}

theorem branchesOver_of_get? {left right : NodeId} {l r : Node} (hLeft : f.get? left = some l)
    (hRight : f.get? right = some r) :
    branchesOver rules f left right =
      (rules.heads (.binary l.label r.label)).map fun label =>
        Node.above label left right l.span r.span := by
  simp only [branchesOver, hLeft, hRight]

theorem mem_branchesOver {left right : NodeId} {node : Node} :
    node ∈ branchesOver rules f left right ↔
      ∃ l r, f.get? left = some l ∧ f.get? right = some r ∧
        ∃ label ∈ rules.heads (.binary l.label r.label),
          node = Node.above label left right l.span r.span := by
  unfold branchesOver
  split
  · rename_i l r foundLeft foundRight
    simp [foundLeft, foundRight, eq_comm]
  · rename_i missing
    simp only [List.not_mem_nil, false_iff]
    rintro ⟨l, r, foundLeft, foundRight, -⟩
    exact missing l r foundLeft foundRight

/-- A known id keeps its node in a forest that has grown. -/
theorem Forest.IsStartOf.get?_eq {g : Forest} (base : f.IsStartOf g) {id : NodeId}
    (known : id.index < f.size) : g.get? id = f.get? id := by
  obtain ⟨node, found⟩ := f.exists_get? known
  rw [found, base.get? found]

/-- Branches over known ids are the same in a forest that has grown. -/
theorem Forest.IsStartOf.branchesAmong_eq {g : Forest} (base : f.IsStartOf g)
    {lefts rights : List NodeId} (hLefts : ∀ left ∈ lefts, left.index < f.size)
    (hRights : ∀ right ∈ rights, right.index < f.size) :
    branchesAmong rules g lefts rights = branchesAmong rules f lefts rights := by
  apply List.flatMap_congr
  intro left isLeft
  apply List.flatMap_congr
  intro right isRight
  rw [branchesOver, branchesOver, base.get?_eq (hLefts left isLeft),
    base.get?_eq (hRights right isRight)]

namespace Composition

/-- The composition has gone on by appending these nodes, and was not stopped. -/
structure Appends (c : Composition) (new : List Node) (d : Composition) : Prop where
  running : d.stopped = false
  nodes : d.forest.nodes.toList = c.forest.nodes.toList ++ new
  ids : d.ids.toList = c.ids.toList ++ c.forest.nextIds new.length

variable {c d e : Composition} {new more : List Node}

theorem Appends.forest_adds (h : Appends c new d) :
    c.forest.Adds new (c.forest.nextIds new.length, d.forest) := ⟨h.nodes, rfl⟩

theorem Appends.isStartOf (h : Appends c new d) : c.forest.IsStartOf d.forest :=
  h.forest_adds.isStartOf

theorem Appends.refl (running : c.stopped = false) : Appends c [] c where
  running := running
  nodes := by simp
  ids := by simp [Forest.nextIds]

theorem Appends.trans (h : Appends c new d) (next : Appends d more e) :
    Appends c (new ++ more) e where
  running := next.running
  nodes := (h.forest_adds.append next.forest_adds).nodes
  ids := by
    rw [next.ids, h.ids, List.append_assoc]
    exact congrArg (c.ids.toList ++ ·) (h.forest_adds.append next.forest_adds).ids

/-- A composition that began with a forest has grown that forest. -/
theorem Appends.adds_of_start (h : Appends (start f) new d) :
    f.Adds new (d.ids.toList, d.forest) where
  nodes := h.nodes
  ids := by simpa [start] using h.ids

/-! Composing reads the nodes of `f`, the forest in which the ids were found; by the
time of a later pair the composition has grown it. -/

variable {left right : NodeId} {lefts rights : List NodeId}

theorem join_appends (rules : RuleSet) (running : c.stopped = false) (base : f.IsStartOf c.forest)
    (hLeft : left.index < f.size) (hRight : right.index < f.size) :
    Appends c (branchesOver rules f left right) (join rules left c right) := by
  obtain ⟨l, foundLeft⟩ := Forest.exists_get? hLeft
  obtain ⟨r, foundRight⟩ := Forest.exists_get? hRight
  rw [join_of_get? running (base.get? foundLeft) (base.get? foundRight),
    branchesOver_of_get? foundLeft foundRight]
  have added := Forest.adds_addBranches c.forest (rules.heads (.binary l.label r.label)) left right
    l.span r.span (Forest.lt_size_of_get? (base.get? foundLeft))
    (Forest.lt_size_of_get? (base.get? foundRight))
  exact ⟨rfl, added.nodes, by simp [added.ids]⟩

theorem foldl_join_appends (rules : RuleSet) (running : c.stopped = false)
    (base : f.IsStartOf c.forest) (hLeft : left.index < f.size)
    (hRights : ∀ right ∈ rights, right.index < f.size) :
    Appends c (rights.flatMap (branchesOver rules f left)) (rights.foldl (join rules left) c) := by
  induction rights generalizing c with
  | nil => exact .refl running
  | cons right rest ih =>
      obtain ⟨here, later⟩ := List.forall_mem_cons.1 hRights
      have first := join_appends rules running base hLeft here
      rw [List.flatMap_cons, List.foldl_cons]
      exact first.trans (ih first.running (base.trans first.isStartOf) later)

/-- **Joining two lists of known ids appends one branch for each pair and each rule**, the
pairs with the left list outside and the rules in the order of registration. -/
theorem joinAll_appends (rules : RuleSet) (running : c.stopped = false)
    (base : f.IsStartOf c.forest) (hLefts : ∀ left ∈ lefts, left.index < f.size)
    (hRights : ∀ right ∈ rights, right.index < f.size) :
    Appends c (branchesAmong rules f lefts rights) (joinAll rules lefts rights c) := by
  induction lefts generalizing c with
  | nil => exact .refl running
  | cons left rest ih =>
      obtain ⟨here, later⟩ := List.forall_mem_cons.1 hLefts
      have row := foldl_join_appends rules running base here hRights
      rw [branchesAmong, List.flatMap_cons, joinAll, List.foldl_cons]
      exact row.trans (ih row.running (base.trans row.isStartOf) later)

end Composition

/-- Ids that a forest knows can be joined in every forest that it has grown into. -/
theorem Forest.exists_compose_eq {g : Forest} (base : f.IsStartOf g) {lefts rights : List NodeId}
    (hLefts : ∀ left ∈ lefts, left.index < f.size)
    (hRights : ∀ right ∈ rights, right.index < f.size) :
    ∃ composed grown, g.compose rules lefts rights = (some composed, grown) ∧
      g.Adds (branchesAmong rules f lefts rights) (composed, grown) := by
  have joined := @Composition.joinAll_appends f (.start g) lefts rights rules rfl base hLefts hRights
  refine ⟨_, _, ?_, joined.adds_of_start⟩
  rw [compose, joined.running]
  rfl

end PhraseChart
