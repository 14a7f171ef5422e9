/-
# PhraseChart.Proofs.Chart.Derivations -- the list of derivations of a span

The recursion `derivations` in the terms in which it is thought of: one word has
its leaves (`derivations_self`), and a longer span has one branch for each split,
each derivation of the left part, each of the right part and each rule
(`derivations_of_lt`).

Over an indexed rule set the list is exact: it holds a tree just when every node of
the tree follows a rule and its leaves are the words of the span
(`mem_derivations_iff`), and it holds no tree twice (`nodup_derivations`).  Both go by
induction on the length of the span; a branch is found again at the one split that
its left part determines, since no part is empty.
-/
import Mathlib.Data.List.Nodup
import PhraseChart.Chart
import PhraseChart.Grammar.Derivation
import PhraseChart.Proofs.Grammar.Indexing

namespace PhraseChart

set_option autoImplicit false

variable {rules : RuleSet} {tokens : List Word} {first last : Nat}

/-! ## The recursion -/

theorem derivations_self (rules : RuleSet) (tokens : List Word) (position : Nat) :
    derivations rules tokens position position = wordTrees rules tokens position := by
  rw [derivations, Nat.sub_self, derivationsOver]

theorem flatMap_finRange {α : Type} (n : Nat) (f : Nat → List α) :
    ((List.finRange n).flatMap fun i => f i.val) = (List.range n).flatMap f := by
  induction n generalizing f with
  | zero => rfl
  | succ n ih =>
      rw [List.finRange_succ, List.range_succ_eq_map, List.flatMap_cons, List.flatMap_cons,
        List.flatMap_map, List.flatMap_map]
      exact congrArg (f 0 ++ ·) (ih fun i => f (i + 1))

theorem derivations_of_lt (h : first < last) :
    derivations rules tokens first last =
      (Chart.splits ⟨first, last⟩).flatMap fun split =>
        (derivations rules tokens first split).flatMap fun left =>
          (derivations rules tokens (split + 1) last).flatMap (joinTrees rules left) := by
  obtain ⟨extent, rfl⟩ := Nat.exists_eq_add_of_lt h
  have unfolded : derivations rules tokens first (first + extent + 1) =
      (List.range (extent + 1)).flatMap fun split =>
        (derivationsOver rules tokens first split).flatMap fun left =>
          (derivationsOver rules tokens (first + split + 1) (extent - split)).flatMap
            (joinTrees rules left) := by
    rw [derivations, show first + extent + 1 - first = extent + 1 by omega, derivationsOver]
    exact flatMap_finRange (extent + 1) fun split =>
      (derivationsOver rules tokens first split).flatMap fun left =>
        (derivationsOver rules tokens (first + split + 1) (extent - split)).flatMap
          (joinTrees rules left)
  rw [unfolded, Chart.splits, show first + extent + 1 - first = extent + 1 by omega,
    List.range'_eq_map_range, List.flatMap_map]
  apply List.flatMap_congr
  intro split member
  have inside := List.mem_range.1 member
  simp only [derivations, show first + split - first = split by omega,
    show first + extent + 1 - (first + split + 1) = extent - split by omega]

theorem mem_splits {split : Nat} :
    split ∈ Chart.splits ⟨first, last⟩ ↔ first ≤ split ∧ split < last := by
  simp only [Chart.splits, List.mem_range'_1]
  omega

/-! ## The words of a span -/

/-- The words from position `first` to position `last`. -/
def wordsOf (tokens : List Word) (first last : Nat) : List Word :=
  (tokens.drop first).take (last + 1 - first)

theorem length_wordsOf (h : last < tokens.length) :
    (wordsOf tokens first last).length = last + 1 - first := by
  rw [wordsOf, List.length_take, List.length_drop]
  omega

theorem wordsOf_self {word : Word} (h : tokens[first]? = some word) :
    wordsOf tokens first first = [word] := by
  obtain ⟨inside, rfl⟩ := List.getElem?_eq_some_iff.1 h
  rw [wordsOf, List.drop_eq_getElem_cons inside, show first + 1 - first = 1 by omega]
  rfl

/-- The words of a span are those of its two parts. -/
theorem wordsOf_split (tokens : List Word) {split : Nat} (h : first ≤ split) (hLast : split < last) :
    wordsOf tokens first split ++ wordsOf tokens (split + 1) last = wordsOf tokens first last := by
  have beyond : tokens.drop (split + 1) = (tokens.drop first).drop (split + 1 - first) := by
    rw [List.drop_drop]
    congr 1
    omega
  rw [wordsOf, wordsOf, wordsOf, beyond, ← List.take_add]
  congr 1
  omega

/-- Two parts of a span are told apart by the length of the left one. -/
theorem exists_split {l r : List Word} (hLast : last < tokens.length) (hFirst : first ≤ last)
    (hl : l ≠ []) (hr : r ≠ []) (h : l ++ r = wordsOf tokens first last) :
    ∃ split, (first ≤ split ∧ split < last) ∧ l = wordsOf tokens first split ∧
      r = wordsOf tokens (split + 1) last := by
  have lengths := congrArg List.length h
  rw [List.length_append, length_wordsOf hLast] at lengths
  have lPos := List.length_pos_iff.2 hl
  have rPos := List.length_pos_iff.2 hr
  have low : first ≤ first + l.length - 1 := by omega
  have high : first + l.length - 1 < last := by omega
  refine ⟨first + l.length - 1, ⟨low, high⟩, ?_⟩
  have parted := h.trans (wordsOf_split tokens low high).symm
  refine List.append_inj parted ?_
  rw [length_wordsOf (by omega)]
  omega

/-! ## Exactness -/

theorem mem_wordTrees (indexed : rules.Indexed) {position : Nat} {word : Word}
    (h : tokens[position]? = some word) {tree : Tree} :
    tree ∈ wordTrees rules tokens position ↔
      ∃ label, ⟨label, .lexical word⟩ ∈ rules.toList ∧ tree = .leaf label word := by
  simp only [wordTrees, h, List.mem_map, indexed.mem_heads, eq_comm]

theorem mem_joinTrees (indexed : rules.Indexed) {left right tree : Tree} :
    tree ∈ joinTrees rules left right ↔
      ∃ label, ⟨label, .binary left.label right.label⟩ ∈ rules.toList ∧
        tree = .branch label left right := by
  simp only [joinTrees, List.mem_map, indexed.mem_heads, eq_comm]

theorem mem_derivations_of_lt (indexed : rules.Indexed) (h : first < last) {tree : Tree} :
    tree ∈ derivations rules tokens first last ↔
      ∃ split, (first ≤ split ∧ split < last) ∧
        ∃ left ∈ derivations rules tokens first split,
          ∃ right ∈ derivations rules tokens (split + 1) last,
            ∃ label, ⟨label, .binary left.label right.label⟩ ∈ rules.toList ∧
              tree = .branch label left right := by
  simp only [derivations_of_lt h, List.mem_flatMap, mem_splits, mem_joinTrees indexed]

/-- **The list holds the derivation trees of the span and nothing else.** -/
theorem mem_derivations_iff (indexed : rules.Indexed) (h : first ≤ last)
    (hLast : last < tokens.length) {tree : Tree} :
    tree ∈ derivations rules tokens first last ↔
      tree.words = wordsOf tokens first last ∧ tree.IsDerivation rules := by
  induction extent : last - first using Nat.strongRecOn generalizing first last tree with
  | _ extent ih =>
      rcases Nat.eq_or_lt_of_le h with rfl | longer
      · have found := List.getElem?_eq_getElem hLast
        rw [derivations_self, mem_wordTrees indexed found, wordsOf_self found]
        constructor
        · rintro ⟨label, member, rfl⟩
          exact ⟨rfl, member⟩
        · rintro ⟨covered, follows⟩
          cases tree with
          | leaf label word =>
              obtain rfl : word = tokens[first] := by simpa [Tree.words] using covered
              exact ⟨label, follows, rfl⟩
          | branch label left right =>
              have short := congrArg List.length covered
              have leftPos := List.length_pos_iff.2 left.words_ne_nil
              have rightPos := List.length_pos_iff.2 right.words_ne_nil
              simp only [Tree.words, List.length_append, List.length_singleton] at short
              omega
      · rw [mem_derivations_of_lt indexed longer]
        constructor
        · rintro ⟨split, ⟨low, high⟩, left, inLeft, right, inRight, label, member, rfl⟩
          obtain ⟨leftWords, leftFollows⟩ :=
            (ih _ (by omega) low (by omega) rfl).1 inLeft
          obtain ⟨rightWords, rightFollows⟩ :=
            (ih _ (by omega) (by omega : split + 1 ≤ last) hLast rfl).1 inRight
          refine ⟨?_, member, leftFollows, rightFollows⟩
          rw [Tree.words, leftWords, rightWords, wordsOf_split tokens low high]
        · rintro ⟨covered, follows⟩
          cases tree with
          | leaf label word =>
              have short := congrArg List.length covered
              rw [length_wordsOf hLast, Tree.words, List.length_singleton] at short
              omega
          | branch label left right =>
              obtain ⟨member, leftFollows, rightFollows⟩ := follows
              obtain ⟨split, ⟨low, high⟩, leftWords, rightWords⟩ :=
                exists_split hLast h left.words_ne_nil right.words_ne_nil covered
              exact ⟨split, ⟨low, high⟩,
                left, (ih _ (by omega) low (by omega) rfl).2 ⟨leftWords, leftFollows⟩,
                right, (ih _ (by omega) (by omega) hLast rfl).2 ⟨rightWords, rightFollows⟩,
                label, member, rfl⟩

/-! ## No repetition -/

theorem nodup_joinTrees (indexed : rules.Indexed) (left right : Tree) :
    (joinTrees rules left right).Nodup := by
  refine (indexed.nodup_heads _).map ?_
  intro label other same
  exact (Tree.branch.inj same).1

/-- **No derivation is listed twice.** -/
theorem nodup_derivations (indexed : rules.Indexed) (h : first ≤ last)
    (hLast : last < tokens.length) : (derivations rules tokens first last).Nodup := by
  induction extent : last - first using Nat.strongRecOn generalizing first last with
  | _ extent ih =>
      rcases Nat.eq_or_lt_of_le h with rfl | longer
      · rw [derivations_self, wordTrees, List.getElem?_eq_getElem hLast]
        refine (indexed.nodup_heads _).map ?_
        intro label other same
        exact (Tree.leaf.inj same).1
      · rw [derivations_of_lt longer]
        refine nodup_flatMap_of (List.nodup_range' ..) ?_ ?_
        · intro split member
          obtain ⟨low, high⟩ := mem_splits.1 member
          refine nodup_flatMap_of (ih _ (by omega) low (by omega) rfl) ?_ ?_
          · intro left _
            refine nodup_flatMap_of (ih _ (by omega) (by omega) hLast rfl)
              (fun right _ => nodup_joinTrees indexed left right) ?_
            intro right _ right' _ tree one two
            obtain ⟨_, _, rfl⟩ := (mem_joinTrees indexed).1 one
            obtain ⟨_, _, same⟩ := (mem_joinTrees indexed).1 two
            exact (Tree.branch.inj same).2.2
          · intro left _ left' _ tree one two
            simp only [List.mem_flatMap, mem_joinTrees indexed] at one two
            obtain ⟨_, _, _, _, rfl⟩ := one
            obtain ⟨_, _, _, _, same⟩ := two
            exact (Tree.branch.inj same).2.1
        · -- The left part of a branch is as long as the split says.
          intro split member split' member' tree one two
          obtain ⟨low, high⟩ := mem_splits.1 member
          obtain ⟨low', high'⟩ := mem_splits.1 member'
          simp only [List.mem_flatMap, mem_joinTrees indexed] at one two
          obtain ⟨left, inLeft, _, _, _, _, rfl⟩ := one
          obtain ⟨left', inLeft', _, _, _, _, same⟩ := two
          obtain rfl := (Tree.branch.inj same).2.1
          have covered := ((mem_derivations_iff indexed low (by omega)).1 inLeft).1
          have covered' := ((mem_derivations_iff indexed low' (by omega)).1 inLeft').1
          have lengths := congrArg List.length (covered.symm.trans covered')
          rw [length_wordsOf (by omega), length_wordsOf (by omega)] at lengths
          omega

end PhraseChart
