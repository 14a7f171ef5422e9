/-
# PhraseChart.Proofs.Forest.Joining -- joining any two lists of ids

A composition takes the pairs of its two lists one after another.  A pair is joined when the forest
has both of its nodes by then: those it had before, or those that earlier pairs have added.  So
whether an id is known may change while the composition is under way.

`Joins rules old pairs new` says that each of the pairs finds its nodes when its turn comes, and
that `new` is what they add.  It speaks of lists of nodes only.  Pairs that do so are joined by the
composition as well (`Joins.appends`), and of all other lists of pairs there is a first pair that
does not find its nodes (`joins_or_stops`); it stops the composition (`joinPairs_of_lacksOne`).

`compose_joins` puts this together, beside the case that all ids are known from the start.
-/
import Mathlib.Data.List.Induction
import Mathlib.Data.List.ProdSigma
import PhraseChart.Proofs.Forest.Growth
import PhraseChart.Proofs.Grammar.Indexing

namespace PhraseChart

set_option autoImplicit false

variable {rules : RuleSet} {f : Forest} {old new : List Node} {left right : NodeId}
  {pairs before after : List (NodeId × NodeId)}

/-- The pairs find their nodes one after another, and `new` is what they add to the nodes `old`: one
branch for each pair and each nonterminal that rewrites to its labels. -/
inductive Joins (rules : RuleSet) (old : List Node) : List (NodeId × NodeId) → List Node → Prop
  | nil : Joins rules old [] []
  | concat {pairs : List (NodeId × NodeId)} {new : List Node} {left right : NodeId} {l r : Node} :
      Joins rules old pairs new →
      (old ++ new)[left.index]? = some l → (old ++ new)[right.index]? = some r →
      Joins rules old (pairs ++ [(left, right)])
        (new ++ (rules.heads (.binary l.label r.label)).map fun label =>
          .branch label ⟨l.span.first, r.span.last⟩ left right)

/-- A list of nodes lacks one of the two ids. -/
def LacksOne (nodes : List Node) (left right : NodeId) : Prop :=
  nodes.length ≤ left.index ∨ nodes.length ≤ right.index

/-- **Either all pairs find their nodes, or there is a first pair that does not.** -/
theorem joins_or_stops (rules : RuleSet) (old : List Node) (pairs : List (NodeId × NodeId)) :
    (∃ new, Joins rules old pairs new) ∨
      ∃ before left right after new, pairs = before ++ (left, right) :: after ∧
        Joins rules old before new ∧ LacksOne (old ++ new) left right := by
  induction pairs using List.reverseRecOn with
  | nil => exact .inl ⟨[], .nil⟩
  | append_singleton pairs pair ih =>
      obtain ⟨left, right⟩ := pair
      rcases ih with ⟨new, joined⟩ | ⟨before, l, r, after, new, rfl, joined, lacks⟩
      · by_cases lacks : LacksOne (old ++ new) left right
        · exact .inr ⟨pairs, left, right, [], new, rfl, joined, lacks⟩
        · obtain ⟨leftKnown, rightKnown⟩ := not_or.1 lacks
          exact .inl ⟨_, joined.concat (List.getElem?_eq_getElem (Nat.not_le.1 leftKnown))
            (List.getElem?_eq_getElem (Nat.not_le.1 rightKnown))⟩
      · exact .inr ⟨before, l, r, after ++ [(left, right)], new, by simp, joined, lacks⟩

namespace Composition

variable {c : Composition}

/-- Joins pairs one after another. -/
def joinPairs (rules : RuleSet) (pairs : List (NodeId × NodeId)) (c : Composition) : Composition :=
  pairs.foldl (fun c pair => join rules pair.1 c pair.2) c

theorem joinAll_eq_joinPairs (lefts rights : List NodeId) :
    joinAll rules lefts rights c = joinPairs rules (lefts ×ˢ rights) c := by
  change _ = ((lefts.flatMap fun left => rights.map (Prod.mk left)).foldl _ c)
  simp only [joinAll, List.foldl_flatMap, List.foldl_map]

theorem joinPairs_of_stopped (h : c.stopped = true) : joinPairs rules pairs c = c := by
  induction pairs with
  | nil => rfl
  | cons pair rest ih => rw [joinPairs, List.foldl_cons, join_of_stopped h, ← joinPairs, ih]

/-- The nodes that the pairs find are the ones that the composition looks up. -/
theorem joinPairs_appends (h : Joins rules f.nodes.toList pairs new) :
    Appends (start f) new (joinPairs rules pairs (start f)) := by
  induction h with
  | nil => exact .refl rfl
  | @concat pairs new left right l r _ leftFound rightFound ih =>
      have grown : (joinPairs rules pairs (start f)).forest.nodes.toList =
          f.nodes.toList ++ new := ih.nodes
      have foundLeft : (joinPairs rules pairs (start f)).forest.get? left = some l := by
        rw [Forest.get?_eq_toList, grown, leftFound]
      have foundRight : (joinPairs rules pairs (start f)).forest.get? right = some r := by
        rw [Forest.get?_eq_toList, grown, rightFound]
      have joined := join_appends rules ih.running (Forest.IsStartOf.refl _)
        (Forest.lt_size_of_get? foundLeft) (Forest.lt_size_of_get? foundRight)
      rw [branchesOver_of_get? foundLeft foundRight] at joined
      rw [joinPairs, List.foldl_concat]
      exact ih.trans joined

/-- **A pair that lacks a node stops the composition**, and what comes after it adds nothing. -/
theorem joinPairs_of_lacksOne (h : Joins rules f.nodes.toList before new)
    (lacks : LacksOne (f.nodes.toList ++ new) left right) :
    joinPairs rules (before ++ (left, right) :: after) (start f) =
      { joinPairs rules before (start f) with stopped := true } := by
  have appended := joinPairs_appends h
  have grown : (joinPairs rules before (start f)).forest.nodes.toList =
      f.nodes.toList ++ new := appended.nodes
  have missing : (joinPairs rules before (start f)).forest.get? left = none ∨
      (joinPairs rules before (start f)).forest.get? right = none := by
    simp only [Forest.get?_eq_toList, grown, List.getElem?_eq_none_iff]
    exact lacks
  rw [joinPairs, List.foldl_append, List.foldl_cons]
  change joinPairs rules after (join rules left (joinPairs rules before (start f)) right) = _
  rw [join_of_get?_none appended.running missing, joinPairs_of_stopped rfl]

end Composition

/-! ## Composing -/

variable {lefts rights : List NodeId}

theorem Forest.compose_eq (f : Forest) (rules : RuleSet) (lefts rights : List NodeId) :
    f.compose rules lefts rights =
      (if (Composition.joinPairs rules (lefts ×ˢ rights) (.start f)).stopped then none
        else some (Composition.joinPairs rules (lefts ×ˢ rights) (.start f)).ids.toList,
        (Composition.joinPairs rules (lefts ×ˢ rights) (.start f)).forest) := by
  rw [compose, Composition.joinAll_eq_joinPairs]

/-- All pairs find their nodes. -/
theorem Forest.compose_of_joins (h : Joins rules f.nodes.toList (lefts ×ˢ rights) new) :
    ∃ grown, f.compose rules lefts rights = (some (f.nextIds new.length), grown) ∧
      grown.nodes.toList = f.nodes.toList ++ new := by
  have appended := Composition.joinPairs_appends h
  refine ⟨_, ?_, appended.nodes⟩
  rw [compose_eq, appended.running, appended.ids]
  rfl

/-- A pair does not find its nodes. -/
theorem Forest.compose_of_lacksOne (order : lefts ×ˢ rights = before ++ (left, right) :: after)
    (h : Joins rules f.nodes.toList before new)
    (lacks : LacksOne (f.nodes.toList ++ new) left right) :
    ∃ grown, f.compose rules lefts rights = (none, grown) ∧
      grown.nodes.toList = f.nodes.toList ++ new := by
  refine ⟨_, ?_, (Composition.joinPairs_appends h).nodes⟩
  rw [compose_eq, order, Composition.joinPairs_of_lacksOne h lacks]
  rfl

/-- The branches over known ids, in terms of any function that gives the nodes of these ids. -/
theorem branchesAmong_eq_of_get? {node : NodeId → Node}
    (found : ∀ id ∈ lefts ++ rights, f.get? id = some (node id)) :
    branchesAmong rules f lefts rights =
      lefts.flatMap fun left => rights.flatMap fun right =>
        (rules.heads (.binary (node left).label (node right).label)).map fun label =>
          Node.branch label ⟨(node left).span.first, (node right).span.last⟩ left right := by
  rw [branchesAmong]
  apply List.flatMap_congr
  intro left isLeft
  apply List.flatMap_congr
  intro right isRight
  rw [branchesOver_of_get? (found left (by simp [isLeft])) (found right (by simp [isRight]))]
  rfl

/-- **Composing appends one branch for each left id, each right id and each nonterminal that rewrites
to their labels**, in this order, and answers with the next ids; no old node changes.  It goes wrong
just when a pair comes up with an id that the forest lacks by then, where the branches of earlier
pairs count as nodes of the forest; it has then appended these and nothing else. -/
theorem compose_joins (rules : RuleSet) (f : Forest) (lefts rights : List NodeId) :
    ((∀ id ∈ lefts ++ rights, id.index < f.size) →
      ∃ (node : NodeId → Node) (new : List Node) (grown : Forest),
        (∀ id ∈ lefts ++ rights, f.get? id = some (node id)) ∧
        (new = lefts.flatMap fun left => rights.flatMap fun right =>
          (rules.heads (.binary (node left).label (node right).label)).map fun label =>
            .branch label ⟨(node left).span.first, (node right).span.last⟩ left right) ∧
        grown.nodes.toList = f.nodes.toList ++ new ∧
        f.compose rules lefts rights =
          (some ((List.range' f.size new.length).map NodeId.mk), grown)) ∧
    ((f.compose rules lefts rights).1 = none ↔
      ∃ before left right after new, lefts ×ˢ rights = before ++ (left, right) :: after ∧
        Joins rules f.nodes.toList before new ∧ LacksOne (f.nodes.toList ++ new) left right) ∧
    (∀ before left right after new, lefts ×ˢ rights = before ++ (left, right) :: after →
      Joins rules f.nodes.toList before new → LacksOne (f.nodes.toList ++ new) left right →
      (f.compose rules lefts rights).2.nodes.toList = f.nodes.toList ++ new) ∧
    ∀ new, Joins rules f.nodes.toList (lefts ×ˢ rights) new →
      ∃ grown, f.compose rules lefts rights =
          (some ((List.range' f.size new.length).map NodeId.mk), grown) ∧
        grown.nodes.toList = f.nodes.toList ++ new := by
  refine ⟨fun known => ?_, ⟨fun wrong => ?_, ?_⟩, ?_, fun new => Forest.compose_of_joins⟩
  · have found : ∀ id ∈ lefts ++ rights,
        f.get? id = some ((f.get? id).getD (.leaf ⟨""⟩ 0)) := by
      intro id isGiven
      obtain ⟨node, found⟩ := f.exists_get? (known id isGiven)
      rw [found, Option.getD_some]
    obtain ⟨composed, grown, answered, added⟩ := @Forest.exists_compose_eq rules f f
      (Forest.IsStartOf.refl f) lefts rights
      (fun left isLeft => known left (List.mem_append_left _ isLeft))
      (fun right isRight => known right (List.mem_append_right _ isRight))
    refine ⟨_, _, grown, found, branchesAmong_eq_of_get? found, added.nodes, ?_⟩
    rw [answered]
    exact congrArg (fun ids => (some ids, grown)) added.ids
  · rcases joins_or_stops rules f.nodes.toList (lefts ×ˢ rights) with ⟨new, joined⟩ | stops
    · obtain ⟨grown, answered, -⟩ := Forest.compose_of_joins joined
      simp [answered] at wrong
    · exact stops
  · rintro ⟨before, left, right, after, new, order, joined, lacks⟩
    obtain ⟨grown, answered, -⟩ := Forest.compose_of_lacksOne order joined lacks
    rw [answered]
  · intro before left right after new order joined lacks
    obtain ⟨grown, answered, nodes⟩ := Forest.compose_of_lacksOne order joined lacks
    rw [answered, nodes]

/-- A word may be paired with itself, and then with that pair. -/
def selfPairing : List Rule :=
  [⟨⟨"S"⟩, .binary ⟨"A"⟩ ⟨"A"⟩⟩, ⟨⟨"T"⟩, .binary ⟨"A"⟩ ⟨"S"⟩⟩]

theorem heads_selfPairing :
    (RuleSet.ofList selfPairing).heads (.binary ⟨"A"⟩ ⟨"A"⟩) = [⟨"S"⟩] ∧
      (RuleSet.ofList selfPairing).heads (.binary ⟨"A"⟩ ⟨"S"⟩) = [⟨"T"⟩] := by
  simp only [RuleSet.heads_ofList]
  decide

/-- The second pair finds what the first has added. -/
theorem joins_selfPairing :
    Joins (.ofList selfPairing) [.leaf ⟨"A"⟩ 4] [(⟨0⟩, ⟨0⟩), (⟨0⟩, ⟨1⟩)]
      [.branch ⟨"S"⟩ ⟨4, 4⟩ ⟨0⟩ ⟨0⟩, .branch ⟨"T"⟩ ⟨4, 4⟩ ⟨0⟩ ⟨1⟩] := by
  obtain ⟨ofLeaves, ofLate⟩ := heads_selfPairing
  have first : Joins (.ofList selfPairing) [.leaf ⟨"A"⟩ 4] [(⟨0⟩, ⟨0⟩)]
      [.branch ⟨"S"⟩ ⟨4, 4⟩ ⟨0⟩ ⟨0⟩] := by
    have joined := @Joins.concat (.ofList selfPairing) [.leaf ⟨"A"⟩ 4] _ _ ⟨0⟩ ⟨0⟩ _ _ .nil rfl rfl
    simpa [Node.label, Node.span, ofLeaves] using joined
  have joined := @Joins.concat _ _ _ _ ⟨0⟩ ⟨1⟩ _ _ first rfl rfl
  simpa [Node.label, Node.span, ofLate] using joined

/-- Id 1 is not known until the first pair has been joined, and id 7 never is. -/
theorem compose_joins_late :
    ∃ f : Forest, f.nodes.toList = [.leaf ⟨"A"⟩ 4] ∧
      (∀ id ∈ [⟨0⟩] ++ [⟨0⟩], NodeId.index id < f.size) ∧
      (f.compose (.ofList selfPairing) [⟨0⟩] [⟨0⟩]).1 = some [⟨1⟩] ∧
      (f.compose (.ofList selfPairing) [⟨0⟩] [⟨0⟩, ⟨1⟩, ⟨7⟩]).1 = none ∧
      (f.compose (.ofList selfPairing) [⟨0⟩] [⟨0⟩, ⟨1⟩, ⟨7⟩]).2.nodes.toList =
        [.leaf ⟨"A"⟩ 4, .branch ⟨"S"⟩ ⟨4, 4⟩ ⟨0⟩ ⟨0⟩, .branch ⟨"T"⟩ ⟨4, 4⟩ ⟨0⟩ ⟨1⟩] := by
  have known : ∀ id ∈ [⟨0⟩] ++ [⟨0⟩], NodeId.index id < (Forest.empty.addLeaf ⟨"A"⟩ 4).2.size := by
    decide
  have early := compose_joins (.ofList selfPairing) (Forest.empty.addLeaf ⟨"A"⟩ 4).2 [⟨0⟩] [⟨0⟩]
  have late := compose_joins (.ofList selfPairing) (Forest.empty.addLeaf ⟨"A"⟩ 4).2 [⟨0⟩]
    [⟨0⟩, ⟨1⟩, ⟨7⟩]
  refine ⟨(Forest.empty.addLeaf ⟨"A"⟩ 4).2, rfl, known, ?_, ?_, ?_⟩
  · obtain ⟨node, new, grown, found, written, -, answered⟩ := early.1 known
    have isLeaf : node ⟨0⟩ = .leaf ⟨"A"⟩ 4 := (Option.some.inj (found ⟨0⟩ (by simp))).symm
    have single : new.length = 1 := by
      simp [written, isLeaf, Node.label, heads_selfPairing.1]
    rw [answered, single]
    rfl
  · exact late.2.1.2 ⟨[(⟨0⟩, ⟨0⟩), (⟨0⟩, ⟨1⟩)], ⟨0⟩, ⟨7⟩, [], _, rfl, joins_selfPairing,
      .inr (by decide)⟩
  · exact late.2.2.1 [(⟨0⟩, ⟨0⟩), (⟨0⟩, ⟨1⟩)] ⟨0⟩ ⟨7⟩ [] _ rfl joins_selfPairing
      (.inr (by decide))

end PhraseChart
