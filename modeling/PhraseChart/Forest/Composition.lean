/-
# PhraseChart.Forest.Composition -- joining two lists of phrases

Every phrase of one list is joined with every phrase of another: each rule that
rewrites to the two labels adds one branch.  The pairs are taken with the left
list outside and the right list inside, the rules in the order of registration.

A pair with an id that the forest lacks at that moment stops the composition.
The nodes that earlier pairs added stay (`Composition.joinAll`).
-/
import PhraseChart.Forest
import PhraseChart.Grammar.RuleSet

namespace PhraseChart

set_option autoImplicit false

/-- A composition under way: the forest so far, the ids of the nodes it added, and
whether a pair has stopped it. -/
structure Composition where
  forest : Forest
  ids : Array NodeId
  stopped : Bool

namespace Composition

def start (f : Forest) : Composition := { forest := f, ids := #[], stopped := false }

/-- Joins one pair, unless an earlier one has stopped the composition. -/
def join (rules : RuleSet) (left : NodeId) (c : Composition) (right : NodeId) : Composition :=
  if c.stopped then c
  else
    match hLeft : c.forest.get? left, hRight : c.forest.get? right with
    | some l, some r =>
        let (added, grown) := c.forest.addBranches (rules.heads (.binary l.label r.label))
          left right l.span r.span (Forest.lt_size_of_get? hLeft) (Forest.lt_size_of_get? hRight)
        { forest := grown, ids := c.ids ++ added.toArray, stopped := false }
    | _, _ => { c with stopped := true }

variable {rules : RuleSet} {c : Composition} {left right : NodeId}

theorem join_of_stopped (h : c.stopped = true) : join rules left c right = c := by
  simp [join, h]

/-- A pair of known ids adds one branch for each rule that rewrites to their labels. -/
theorem join_of_get? (h : c.stopped = false) {l r : Node} (hLeft : c.forest.get? left = some l)
    (hRight : c.forest.get? right = some r) :
    join rules left c right =
      let grown := c.forest.addBranches (rules.heads (.binary l.label r.label)) left right
        l.span r.span (Forest.lt_size_of_get? hLeft) (Forest.lt_size_of_get? hRight)
      { forest := grown.2, ids := c.ids ++ grown.1.toArray, stopped := false } := by
  unfold join
  rw [if_neg (by simp [h])]
  split
  · rename_i l' r' hLeft' hRight'
    obtain rfl := Option.some.inj (hLeft'.symm.trans hLeft)
    obtain rfl := Option.some.inj (hRight'.symm.trans hRight)
    rfl
  · rename_i missing
    exact absurd hRight (missing l r hLeft)

/-- A pair with an unknown id adds nothing and stops the composition. -/
theorem join_of_get?_none (h : c.stopped = false)
    (missing : c.forest.get? left = none ∨ c.forest.get? right = none) :
    join rules left c right = { c with stopped := true } := by
  unfold join
  rw [if_neg (by simp [h])]
  split
  · simp_all
  · rfl

/-- Joins every pair of the two lists. -/
def joinAll (rules : RuleSet) (lefts rights : List NodeId) (c : Composition) : Composition :=
  lefts.foldl (fun c left => rights.foldl (join rules left) c) c

end Composition

/-- Joins every pair of two lists in a forest.  The ids of the new nodes come with the
forest unless a pair stopped the composition. -/
def Forest.compose (f : Forest) (rules : RuleSet) (lefts rights : List NodeId) :
    Option (List NodeId) × Forest :=
  let c := (Composition.start f).joinAll rules lefts rights
  (if c.stopped then none else some c.ids.toList, c.forest)

end PhraseChart
