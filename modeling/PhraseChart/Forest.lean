/-
# PhraseChart.Forest -- shared parse trees

A forest keeps the nodes of many trees in one growing sequence.  A node is named
by its place in that sequence, so a phrase that is part of several parses is
stored once, and ids of old nodes keep their meaning when the forest grows.

A branch may only be added above nodes that exist.  Hence children stand before
their parents (`children_lt`), and expanding a node into its tree ends
(`tree?`).  Nothing checks that the spans of two children are adjacent: the span of a
branch starts where the left one starts and ends where the right one ends.
-/
import PhraseChart.Tree

namespace PhraseChart

set_option autoImplicit false

/-- The place of a node in its forest. -/
structure NodeId where
  index : Nat
deriving DecidableEq, Repr

/-- The positions of the first and the last word of a phrase. -/
structure Span where
  first : Nat
  last : Nat
deriving DecidableEq, Repr

inductive Node where
  | leaf (label : Nonterminal) (position : Nat)
  | branch (label : Nonterminal) (span : Span) (left right : NodeId)
deriving DecidableEq, Repr

namespace Node

def label : Node → Nonterminal
  | .leaf label _ => label
  | .branch label _ _ _ => label

def span : Node → Span
  | .leaf _ position => ⟨position, position⟩
  | .branch _ span _ _ => span

def children? : Node → Option (NodeId × NodeId)
  | .leaf _ _ => none
  | .branch _ _ left right => some (left, right)

/-- A branch over two nodes, from the start of the left to the end of the right. -/
def above (label : Nonterminal) (left right : NodeId) (leftSpan rightSpan : Span) : Node :=
  .branch label ⟨leftSpan.first, rightSpan.last⟩ left right

end Node

structure Forest where
  nodes : Array Node
  /-- Children stand before their parents. -/
  children_lt : ∀ (i : Nat) (node : Node), nodes[i]? = some node →
    ∀ left right, node.children? = some (left, right) → left.index < i ∧ right.index < i

namespace Forest

@[ext]
theorem ext {f g : Forest} (h : f.nodes = g.nodes) : f = g := by
  cases f; cases g; simp_all

instance : DecidableEq Forest := fun f g =>
  if h : f.nodes = g.nodes then .isTrue (ext h) else .isFalse fun e => h (e ▸ rfl)

def empty : Forest := ⟨#[], by simp⟩

def size (f : Forest) : Nat := f.nodes.size

def isEmpty (f : Forest) : Bool := f.nodes.isEmpty

def get? (f : Forest) (id : NodeId) : Option Node := f.nodes[id.index]?

/-! ### Growing -/

/-- The ids of the next `count` nodes. -/
def nextIds (f : Forest) (count : Nat) : List NodeId := (List.range' f.size count).map NodeId.mk

theorem getElem?_append_cases {nodes : Array Node} {new : List Node} {i : Nat} {node : Node}
    (h : (nodes ++ new.toArray)[i]? = some node) :
    nodes[i]? = some node ∨ nodes.size ≤ i ∧ node ∈ new := by
  rw [Array.getElem?_append] at h
  split at h
  · exact .inl h
  · refine .inr ⟨by omega, ?_⟩
    simpa using List.mem_of_getElem? (by simpa using h)

/-- Adds one leaf for each label at a position. -/
def addLeaves (f : Forest) (labels : List Nonterminal) (position : Nat) : List NodeId × Forest :=
  (f.nextIds labels.length,
    { nodes := f.nodes ++ (labels.map fun label => Node.leaf label position).toArray
      children_lt := by
        intro i node h left right children
        rcases getElem?_append_cases h with old | ⟨_, new⟩
        · exact f.children_lt i node old left right children
        · obtain ⟨label, _, rfl⟩ := List.mem_map.1 new
          simp [Node.children?] at children })

/-- Adds one branch for each label over two nodes of the forest. -/
def addBranches (f : Forest) (labels : List Nonterminal) (left right : NodeId)
    (leftSpan rightSpan : Span) (hLeft : left.index < f.size) (hRight : right.index < f.size) :
    List NodeId × Forest :=
  (f.nextIds labels.length,
    { nodes := f.nodes ++
        (labels.map fun label => Node.above label left right leftSpan rightSpan).toArray
      children_lt := by
        intro i node h l r children
        rcases getElem?_append_cases h with old | ⟨fresh, new⟩
        · exact f.children_lt i node old l r children
        · obtain ⟨label, _, rfl⟩ := List.mem_map.1 new
          simp only [Node.above, Node.children?, Option.some.injEq, Prod.mk.injEq] at children
          obtain ⟨rfl, rfl⟩ := children
          exact ⟨Nat.lt_of_lt_of_le hLeft fresh, Nat.lt_of_lt_of_le hRight fresh⟩ })

def addLeaf (f : Forest) (label : Nonterminal) (position : Nat) : NodeId × Forest :=
  (⟨f.size⟩, (f.addLeaves [label] position).2)

theorem lt_size_of_get? {f : Forest} {id : NodeId} {node : Node} (h : f.get? id = some node) :
    id.index < f.size :=
  (Array.getElem?_eq_some_iff.1 h).1

/-- One branch over two nodes, or `none` when the forest lacks one of them. -/
def addBranch? (f : Forest) (label : Nonterminal) (left right : NodeId) :
    Option (NodeId × Forest) :=
  match hLeft : f.get? left, hRight : f.get? right with
  | some l, some r =>
      some (⟨f.size⟩, (f.addBranches [label] left right l.span r.span
        (lt_size_of_get? hLeft) (lt_size_of_get? hRight)).2)
  | _, _ => none

/-! ### What growing adds, and what it keeps -/

theorem nodes_addLeaves (f : Forest) (labels : List Nonterminal) (position : Nat) :
    (f.addLeaves labels position).2.nodes.toList =
      f.nodes.toList ++ labels.map fun label => Node.leaf label position := by
  simp [addLeaves]

theorem nodes_addBranches (f : Forest) (labels : List Nonterminal) (left right : NodeId)
    (leftSpan rightSpan : Span) (hLeft : left.index < f.size) (hRight : right.index < f.size) :
    (f.addBranches labels left right leftSpan rightSpan hLeft hRight).2.nodes.toList =
      f.nodes.toList ++ labels.map fun label =>
        Node.above label left right leftSpan rightSpan := by
  simp [addBranches]

/-- The first forest is the beginning of the second. -/
def IsStartOf (f g : Forest) : Prop := f.nodes.toList <+: g.nodes.toList

theorem IsStartOf.refl (f : Forest) : f.IsStartOf f := List.prefix_refl _

theorem IsStartOf.trans {f g h : Forest} (hfg : f.IsStartOf g) (hgh : g.IsStartOf h) :
    f.IsStartOf h := List.IsPrefix.trans hfg hgh

/-- An id keeps its node when the forest grows. -/
theorem IsStartOf.get? {f g : Forest} (h : f.IsStartOf g) {id : NodeId} {node : Node}
    (old : f.get? id = some node) : g.get? id = some node := by
  obtain ⟨rest, grown⟩ := h
  simp only [Forest.get?, ← Array.getElem?_toList] at old ⊢
  rw [← grown, List.getElem?_append_left (List.getElem?_eq_some_iff.1 old).1, old]

/-! ### Expanding -/

/-- The tree below a node, over the given words; `none` when the forest lacks the
node, or the words do not reach a position below it. -/
def tree? (f : Forest) (words : List Word) (id : NodeId) : Option Tree :=
  match h : f.nodes[id.index]? with
  | none => none
  | some (.leaf label position) => (words[position]?).map (Tree.leaf label)
  | some (.branch label _ left right) =>
      have below := f.children_lt id.index _ h left right rfl
      have := below.1
      have := below.2
      match tree? f words left, tree? f words right with
      | some l, some r => some (.branch label l r)
      | _, _ => none
termination_by id.index

variable {f : Forest} {words : List Word} {id : NodeId}

theorem tree?_of_get?_none (h : f.get? id = none) : f.tree? words id = none := by
  unfold tree?
  split <;> simp_all [get?]

theorem tree?_of_leaf {label : Nonterminal} {position : Nat}
    (h : f.get? id = some (.leaf label position)) :
    f.tree? words id = (words[position]?).map (Tree.leaf label) := by
  unfold tree?
  split <;> simp_all [get?]

theorem tree?_of_branch {label : Nonterminal} {span : Span} {left right : NodeId}
    (h : f.get? id = some (.branch label span left right)) :
    f.tree? words id =
      (f.tree? words left).bind fun l => (f.tree? words right).map (Tree.branch label l) := by
  rw [tree?]
  split
  · simp_all [get?]
  · simp_all [get?]
  · rename_i found
    simp only [get?] at h
    rw [h] at found
    simp only [Option.some.injEq, Node.branch.injEq] at found
    obtain ⟨rfl, rfl, rfl, rfl⟩ := found
    cases f.tree? words left <;> cases f.tree? words right <;> rfl

end Forest

end PhraseChart
