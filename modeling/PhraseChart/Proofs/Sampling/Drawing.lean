/-
# PhraseChart.Proofs.Sampling.Drawing -- what the sampler draws

`drawTree_succ_eq_ok_iff` takes one level of a successful drawing apart: the alternative that
was chosen, the drawings of its two halves, and the states of the source between them.  What
an alternative may be is said by `mem_alternatives_iff`: it is a rule of the symbol, and from
half of the permitted depth on a lexical one if there is any.

By induction over the levels, whatever is drawn is a permitted derivation
(`permitted_of_drawTree`).  Nothing is assumed of the source: a choice takes some alternative
or gives up.
-/
import PhraseChart.Proofs.Grammar.Indexing
import PhraseChart.Sampling.Sampler

namespace PhraseChart.Sampling

set_option autoImplicit false

variable {rules : RuleSet} {maxDepth depth remaining : Nat} {symbol : Nonterminal}

/-! ## Alternatives -/

theorem mem_map_rhs_rulesFor (indexed : rules.Indexed) {rhs : Rhs} :
    rhs ∈ (rules.rulesFor symbol).map Rule.rhs ↔ ⟨symbol, rhs⟩ ∈ rules.toList := by
  simp only [List.mem_map, indexed.mem_rulesFor]
  constructor
  · rintro ⟨rule, ⟨member, rfl⟩, rfl⟩
    exact member
  · intro member
    exact ⟨_, ⟨member, rfl⟩, rfl⟩

theorem lexical_ne_nil_iff (indexed : rules.Indexed) :
    ((rules.rulesFor symbol).map Rule.rhs).filter Rhs.isLexical ≠ [] ↔
      HasLexicalRule rules symbol := by
  constructor
  · intro some_
    obtain ⟨rhs, member⟩ := List.exists_mem_of_ne_nil _ some_
    obtain ⟨isRule, lexical⟩ := List.mem_filter.1 member
    cases rhs with
    | lexical word => exact ⟨word, (mem_map_rhs_rulesFor indexed).1 isRule⟩
    | binary left right => simp [Rhs.isLexical] at lexical
  · rintro ⟨word, isRule⟩
    exact List.ne_nil_of_mem
      (List.mem_filter.2 ⟨(mem_map_rhs_rulesFor indexed).2 isRule, rfl⟩)

/-- **The alternatives are the rules of the symbol**, the lexical ones alone from half of the
permitted depth on. -/
theorem mem_alternatives_iff (indexed : rules.Indexed) {rhs : Rhs} :
    rhs ∈ alternatives rules maxDepth depth symbol ↔
      ⟨symbol, rhs⟩ ∈ rules.toList ∧
        (maxDepth / 2 ≤ depth → HasLexicalRule rules symbol → rhs.isLexical = true) := by
  rw [← lexical_ne_nil_iff indexed, ← mem_map_rhs_rulesFor indexed, alternatives]
  split
  · rename_i late
    rw [List.mem_filter]
    exact and_congr_right fun _ => ⟨fun lexical _ _ => lexical, fun h => h late.1 late.2⟩
  · rename_i early
    exact ⟨fun member => ⟨member, fun half some_ => absurd ⟨half, some_⟩ early⟩, And.left⟩

/-! ## One level -/

section Draw

variable {σ : Type} {source : Source σ} {state after : σ} {tree : Tree}

theorem pure_eq_ok_iff {ε α : Type} {a b : α} :
    (pure a : EStateM ε σ α) state = .ok b after ↔ b = a ∧ after = state := by
  change EStateM.Result.ok a state = .ok b after ↔ _
  rw [EStateM.Result.ok.injEq, eq_comm, @eq_comm σ]

theorem bind_eq_ok_iff {ε α β : Type} {x : EStateM ε σ α} {f : α → EStateM ε σ β} {b : β} :
    (x >>= f) state = .ok b after ↔
      ∃ a between, x state = .ok a between ∧ f a between = .ok b after := by
  change EStateM.bind x f state = _ ↔ _
  unfold EStateM.bind
  cases x state <;> simp

theorem map_eq_ok_iff {ε α β : Type} {x : EStateM ε σ α} {f : α → β} {b : β} :
    (f <$> x) state = .ok b after ↔ ∃ a, x state = .ok a after ∧ f a = b := by
  change EStateM.map f x state = _ ↔ _
  unfold EStateM.map
  cases x state <;> simp [and_comm]

/-- **One level of a drawing**: an alternative is chosen, and a binary one has its left half
drawn before its right half. -/
theorem drawTree_succ_eq_ok_iff :
    drawTree source rules maxDepth (remaining + 1) symbol state = .ok tree after ↔
      ∃ rhs chosen,
        chooseRhs source symbol
          (alternatives rules maxDepth (maxDepth - (remaining + 1)) symbol) state = .ok rhs chosen ∧
        ((∃ word, rhs = .lexical word ∧ tree = .leaf symbol word ∧ after = chosen) ∨
          ∃ left right leftTree rightTree between, rhs = .binary left right ∧
            drawTree source rules maxDepth remaining left chosen = .ok leftTree between ∧
            drawTree source rules maxDepth remaining right between = .ok rightTree after ∧
            tree = .branch symbol leftTree rightTree) := by
  rw [drawTree, bind_eq_ok_iff]
  refine exists_congr fun rhs => exists_congr fun chosen => and_congr_right fun _ => ?_
  cases rhs with
  | lexical word => simp [pure_eq_ok_iff]
  | binary left right =>
      simp only [bind_eq_ok_iff, pure_eq_ok_iff]
      constructor
      · rintro ⟨leftTree, between, drawnLeft, rightTree, _, drawnRight, rfl, rfl⟩
        exact .inr ⟨left, right, leftTree, rightTree, between, rfl, drawnLeft, drawnRight, rfl⟩
      · rintro (⟨word, isLexical, -, -⟩ | ⟨_, _, leftTree, rightTree, between, same, drawn⟩)
        · cases isLexical
        · cases same
          obtain ⟨drawnLeft, drawnRight, rfl⟩ := drawn
          exact ⟨leftTree, between, drawnLeft, rightTree, after, drawnRight, rfl, rfl⟩

/-! ## All levels -/

/-- What is drawn `remaining` levels above the limit is a derivation that stays within them and
ends early. -/
theorem permitted_of_drawTree (indexed : rules.Indexed) (inside : remaining ≤ maxDepth)
    (drawn : drawTree source rules maxDepth remaining symbol state = .ok tree after) :
    tree.label = symbol ∧ tree.IsDerivation rules ∧ tree.depth ≤ remaining ∧
      EndsEarly rules (maxDepth / 2) (maxDepth - remaining) tree := by
  induction remaining generalizing symbol state after tree with
  | zero => cases drawn
  | succ remaining ih =>
      obtain ⟨rhs, chosen, chose, shape⟩ := drawTree_succ_eq_ok_iff.1 drawn
      obtain ⟨isRule, early⟩ := (mem_alternatives_iff indexed).1 (mem_of_chooseRhs source chose)
      rcases shape with ⟨word, rfl, rfl, -⟩ |
        ⟨left, right, leftTree, rightTree, between, rfl, drawnLeft, drawnRight, rfl⟩
      · exact ⟨rfl, isRule, by simp [Tree.depth], trivial⟩
      · have within : remaining ≤ maxDepth := by omega
        have below : maxDepth - (remaining + 1) + 1 = maxDepth - remaining := by omega
        obtain ⟨rfl, leftFollows, leftDepth, leftEarly⟩ := ih within drawnLeft
        obtain ⟨rfl, rightFollows, rightDepth, rightEarly⟩ := ih within drawnRight
        refine ⟨rfl, ⟨isRule, leftFollows, rightFollows⟩, ?_, ?_⟩
        · rw [Tree.depth]
          omega
        · rw [EndsEarly, below]
          refine ⟨fun late hasLexical => ?_, leftEarly, rightEarly⟩
          simpa [Rhs.isLexical] using early late hasLexical

/-- **A sentence that is drawn is the yield of a permitted derivation.** -/
theorem permitted_of_sentence (indexed : rules.Indexed) {words : List Word}
    (drawn : sentence source rules maxDepth symbol state = .ok words after) :
    ∃ tree, Permitted rules maxDepth symbol tree ∧ tree.words = words := by
  obtain ⟨tree, isDrawn, rfl⟩ := map_eq_ok_iff.1 drawn
  obtain ⟨label, follows, depth, early⟩ := permitted_of_drawTree indexed (Nat.le_refl _) isDrawn
  rw [Nat.sub_self] at early
  exact ⟨tree, ⟨label, follows, depth, early⟩, rfl⟩

end Draw

end PhraseChart.Sampling
