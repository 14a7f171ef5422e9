/-
# PhraseChart.Proofs.Sampling.Range -- every permitted derivation can be drawn

Whatever the sampler draws is a permitted derivation (`permitted_of_drawTree`).  Here is the
converse: each permitted derivation has words that lead to it.

A choice that reads one accepted word takes the index of that word, and each index has such a
word (`wordFor`): of the products of a word with `n`, the least that is not below
`index * UInt32.size` exceeds it by less than `n`, which every zone allows.  So an alternative has a
word that selects it (`exists_word_chooseRhs`).  The words of a whole derivation are the word of
its root, then those of its left half, then those of its right half, since a source that reads
one list of words after another reads both (`Source.Reads.split`); the induction is over the
tree (`exists_words_drawTree`).

`sentence_range` puts the two directions together, with one word for each node of the
derivation.
-/
import PhraseChart.Proofs.Sampling.Drawing
import PhraseChart.Proofs.Sampling.Source

namespace PhraseChart.Sampling

set_option autoImplicit false

variable {rules : RuleSet} {maxDepth depth remaining : Nat} {symbol : Nonterminal}
variable {σ : Type} {source : Source σ} {state after : σ}

/-! ## Words that are read -/

/-- From `state` the source yields these words, and is then in the state `after`. -/
inductive Source.Reads (source : Source σ) : List UInt32 → σ → σ → Prop
  | nil {state : σ} : Reads source [] state state
  | cons {words : List UInt32} {state after : σ} :
      Reads source words (source.next state).2 after →
      Reads source ((source.next state).1 :: words) state after

theorem Source.Reads.split {words more : List UInt32}
    (reads : source.Reads (words ++ more) state after) :
    ∃ between, source.Reads words state between ∧ source.Reads more between after := by
  induction words generalizing state with
  | nil => exact ⟨state, .nil, reads⟩
  | cons word words ih =>
      cases reads with
      | cons later =>
          obtain ⟨between, first, second⟩ := ih later
          exact ⟨between, .cons first, second⟩

/-- A stream yields its given words first. -/
theorem WordStream.reads_given (s : WordStream) (given : List UInt32) (state : UInt32)
    (used : Nat) :
    s.source.Reads given ⟨given, state, used⟩ ⟨[], state, used + given.length⟩ := by
  induction given generalizing used with
  | nil => exact .nil
  | cons word given ih =>
      have later := ih (used + 1)
      rw [Nat.add_right_comm, Nat.add_assoc] at later
      exact @Source.Reads.cons _ s.source given ⟨word :: given, state, used⟩ _ later

/-! ## Words that select -/

/-- The least word that selects an index below `n`. -/
def wordFor (n index : Nat) : UInt32 := .ofNat ((index * UInt32.size + n - 1) / n)

/-- The product of the word with `n` is the least multiple of `n` from which the upper half is the
index. -/
theorem toNat_wordFor_mul {n index : Nat} (below : index < n) (small : n < UInt32.size) :
    index * UInt32.size ≤ (wordFor n index).toNat * n ∧
      (wordFor n index).toNat * n < index * UInt32.size + n := by
  have positive : 0 < n := Nat.zero_lt_of_lt below
  have steps : (index + 1) * UInt32.size ≤ n * UInt32.size := Nat.mul_le_mul_right _ below
  rw [Nat.succ_mul] at steps
  have quotient := Nat.div_add_mod (index * UInt32.size + n - 1) n
  have remainder := Nat.mod_lt (index * UInt32.size + n - 1) positive
  have fits : (index * UInt32.size + n - 1) / n < UInt32.size := by
    rw [Nat.div_lt_iff_lt_mul positive, Nat.mul_comm UInt32.size]
    omega
  rw [wordFor, UInt32.toNat_ofNat_of_lt' fits, Nat.mul_comm _ n]
  omega

theorem pred_le_zone (n : Nat) : n - 1 ≤ zone n := by
  have grows : n ≤ n <<< (31 - n.log2) := by
    rw [Nat.shiftLeft_eq]
    exact Nat.le_mul_of_pos_right n (Nat.two_pow_pos _)
  rw [zone]
  omega

/-- **Every index is selected by some word**, which is accepted. -/
theorem accepts_wordFor {n : Nat} (small : n < UInt32.size) (index : Fin n) :
    accepts n (wordFor n index) = true ∧ indexOf index.pos (wordFor n index) = index := by
  obtain ⟨least, next⟩ := toNat_wordFor_mul index.isLt small
  have upper : (wordFor n index).toNat * n / UInt32.size = index := by
    rw [Nat.div_eq_iff (by decide)]
    omega
  have lower := Nat.div_add_mod ((wordFor n index).toNat * n) UInt32.size
  have allowed := pred_le_zone n
  refine ⟨?_, Fin.ext upper⟩
  rw [upper, Nat.mul_comm] at lower
  rw [accepts, decide_eq_true_eq]
  omega

/-- A choice is over with the first word when that is accepted. -/
theorem Source.choose_of_accepts {n : Nat} (positive : 0 < n) (patient : 0 < source.patience)
    (accepted : accepts n (source.next state).1 = true) :
    source.choose positive state =
      (some (indexOf positive (source.next state).1), (source.next state).2) := by
  obtain ⟨limit, more⟩ := Nat.exists_eq_add_of_lt patient
  rw [choose, more, draw]
  simp only [accepted, if_true]

/-- **Every alternative has a word that selects it**, whatever source the word comes from. -/
theorem exists_word_chooseRhs {alternatives : List Rhs} {rhs : Rhs} (member : rhs ∈ alternatives)
    (few : alternatives.length < UInt32.size) (symbol : Nonterminal) :
    ∃ word, ∀ {σ : Type} (source : Source σ), 0 < source.patience → ∀ state after,
      source.Reads [word] state after →
        chooseRhs source symbol alternatives state = .ok rhs after := by
  obtain ⟨index, inside, rfl⟩ := List.getElem_of_mem member
  obtain ⟨accepted, selected⟩ := accepts_wordFor few ⟨index, inside⟩
  refine ⟨wordFor alternatives.length index, fun source patient state after reads => ?_⟩
  generalize wordFor alternatives.length index = word at accepted selected reads
  cases reads with
  | cons last =>
      cases last
      have chose := source.choose_of_accepts (Nat.zero_lt_of_lt inside) patient accepted
      rw [selected] at chose
      rw [chooseRhs, dif_pos (Nat.zero_lt_of_lt inside), chose]
      rfl

/-! ## Words that lead to a derivation -/

/-- The alternatives are among the rules of the symbol. -/
theorem length_alternatives_le :
    (alternatives rules maxDepth depth symbol).length ≤ (rules.rulesFor symbol).length := by
  rw [alternatives]
  split
  · exact Nat.le_trans (List.length_filter_le ..) (Nat.le_of_eq (List.length_map ..))
  · exact Nat.le_of_eq (List.length_map ..)

/-- **Every permitted derivation has words that lead to it.**  Distances are counted from a root
that stands `remaining` levels above the limit. -/
theorem exists_words_drawTree (indexed : rules.Indexed)
    (few : ∀ symbol, (rules.rulesFor symbol).length < UInt32.size) {tree : Tree}
    (follows : tree.IsDerivation rules) (fits : tree.depth ≤ remaining)
    (inside : remaining ≤ maxDepth)
    (early : EndsEarly rules (maxDepth / 2) (maxDepth - remaining) tree) :
    ∃ words, ∀ {σ : Type} (source : Source σ), 0 < source.patience → ∀ state after,
      source.Reads words state after →
        drawTree source rules maxDepth remaining tree.label state = .ok tree after := by
  have selected {depth : Nat} {symbol : Nonterminal} {rhs : Rhs}
      (isRule : ⟨symbol, rhs⟩ ∈ rules.toList)
      (mayChoose : maxDepth / 2 ≤ depth → HasLexicalRule rules symbol → rhs.isLexical = true) :=
    exists_word_chooseRhs ((mem_alternatives_iff indexed).2 ⟨isRule, mayChoose⟩)
      (Nat.lt_of_le_of_lt length_alternatives_le (few symbol)) symbol
  induction tree generalizing remaining with
  | leaf label word =>
      obtain ⟨less, rfl⟩ : ∃ less, remaining = less + 1 := ⟨remaining - 1, by
        rw [Tree.depth] at fits
        omega⟩
      obtain ⟨choice, chooses⟩ :=
        @selected (maxDepth - (less + 1)) label (.lexical word) follows fun _ _ => rfl
      refine ⟨[choice], fun source patient state after reads => ?_⟩
      exact drawTree_succ_eq_ok_iff.2
        ⟨_, after, chooses source patient state after reads, .inl ⟨word, rfl, rfl, rfl⟩⟩
  | branch label left right ihLeft ihRight =>
      obtain ⟨isRule, leftFollows, rightFollows⟩ := follows
      obtain ⟨notLate, leftEarly, rightEarly⟩ := early
      rw [Tree.depth] at fits
      obtain ⟨less, rfl⟩ : ∃ less, remaining = less + 1 := ⟨remaining - 1, by omega⟩
      have below : maxDepth - (less + 1) + 1 = maxDepth - less := by omega
      rw [below] at leftEarly rightEarly
      obtain ⟨choice, chooses⟩ := selected isRule fun late some_ => absurd some_ (notLate late)
      obtain ⟨leftWords, drawsLeft⟩ := ihLeft leftFollows (by omega) (by omega) leftEarly
      obtain ⟨rightWords, drawsRight⟩ := ihRight rightFollows (by omega) (by omega) rightEarly
      refine ⟨[choice] ++ (leftWords ++ rightWords), fun source patient state after reads => ?_⟩
      obtain ⟨chosen, readsChoice, readsHalves⟩ := reads.split
      obtain ⟨between, readsLeft, readsRight⟩ := readsHalves.split
      exact drawTree_succ_eq_ok_iff.2
        ⟨_, chosen, chooses source patient state chosen readsChoice,
          .inr ⟨_, _, left, right, between, rfl, drawsLeft source patient chosen between readsLeft,
            drawsRight source patient between after readsRight, rfl⟩⟩

/-- **The sentences that can be drawn are the yields of the permitted derivations.**  What any
source draws is one of them, and each derivation has a finite list of words after which every
source, however it goes on, has drawn it; a stream to which they are given uses them up. -/
theorem sentence_range (inserted : List Rule)
    (few : ∀ symbol, ((RuleSet.ofList inserted).rulesFor symbol).length < UInt32.size)
    (maxDepth : Nat) (symbol : Nonterminal) :
    (∀ words, (∃ (σ : Type) (source : Source σ) (state after : σ),
        sentence source (.ofList inserted) maxDepth symbol state = .ok words after) ↔
      ∃ tree, Permitted (.ofList inserted) maxDepth symbol tree ∧ tree.words = words) ∧
    ∀ tree, Permitted (.ofList inserted) maxDepth symbol tree →
      ∃ given : List UInt32,
        (∀ (σ : Type) (source : Source σ), 0 < source.patience → ∀ state after,
          source.Reads given state after →
            sentence source (.ofList inserted) maxDepth symbol state = .ok tree.words after) ∧
        ∀ seed, sentence (WordStream.ofSeed given seed).source (.ofList inserted) maxDepth symbol
          (.ofSeed given seed) = .ok tree.words ⟨[], seed, given.length⟩ := by
  have indexed := RuleSet.indexed_ofList inserted
  have reached (tree : Tree) (permitted : Permitted (.ofList inserted) maxDepth symbol tree) :
      ∃ given : List UInt32,
        (∀ (σ : Type) (source : Source σ), 0 < source.patience → ∀ state after,
          source.Reads given state after →
            sentence source (.ofList inserted) maxDepth symbol state = .ok tree.words after) ∧
        ∀ seed, sentence (WordStream.ofSeed given seed).source (.ofList inserted) maxDepth symbol
          (.ofSeed given seed) = .ok tree.words ⟨[], seed, given.length⟩ := by
    obtain ⟨rfl, follows, fits, early⟩ := permitted
    rw [← Nat.sub_self maxDepth] at early
    obtain ⟨given, draws⟩ :=
      exists_words_drawTree indexed few follows fits (Nat.le_refl maxDepth) early
    have sentences (σ : Type) (source : Source σ) (patient : 0 < source.patience) (state after : σ)
        (reads : source.Reads given state after) :
        sentence source (.ofList inserted) maxDepth tree.label state = .ok tree.words after :=
      map_eq_ok_iff.2 ⟨tree, draws source patient state after reads, rfl⟩
    refine ⟨given, sentences, fun seed => sentences _ _ (Nat.add_pos_right _ (by decide)) _ _ ?_⟩
    have reads := (WordStream.ofSeed given seed).reads_given given seed 0
    rwa [Nat.zero_add] at reads
  refine ⟨fun words => ⟨?_, ?_⟩, reached⟩
  · rintro ⟨σ, source, state, after, drawn⟩
    exact permitted_of_sentence indexed drawn
  · rintro ⟨tree, permitted, rfl⟩
    obtain ⟨given, -, draws⟩ := reached tree permitted
    exact ⟨_, _, _, _, draws 0⟩

/-- Three alternatives for one nonterminal. -/
def threefold : List Rule :=
  [⟨⟨"S"⟩, .binary ⟨"S"⟩ ⟨"S"⟩⟩, ⟨⟨"S"⟩, .lexical "a"⟩, ⟨⟨"S"⟩, .lexical "b"⟩]

/-- A derivation with a branch right above half of the depth that is permitted. -/
def threefoldTree : Tree :=
  .branch ⟨"S"⟩ (.leaf ⟨"S"⟩ "b") (.branch ⟨"S"⟩ (.leaf ⟨"S"⟩ "a") (.leaf ⟨"S"⟩ "b"))

theorem sentence_range_threefold :
    (∀ symbol, ((RuleSet.ofList threefold).rulesFor symbol).length < UInt32.size) ∧
      Permitted (.ofList threefold) 4 ⟨"S"⟩ threefoldTree ∧
      ∃ given : List UInt32, ∀ seed,
        sentence (WordStream.ofSeed given seed).source (.ofList threefold) 4 ⟨"S"⟩
          (.ofSeed given seed) = .ok ["b", "a", "b"] ⟨[], seed, given.length⟩ := by
  have few (symbol : Nonterminal) :
      ((RuleSet.ofList threefold).rulesFor symbol).length < UInt32.size := by
    rw [(RuleSet.indexed_ofList threefold).rulesFor_eq, RuleSet.toList_ofList]
    exact Nat.lt_of_le_of_lt (List.length_filter_le ..) (by decide)
  have permitted : Permitted (.ofList threefold) 4 ⟨"S"⟩ threefoldTree := by
    refine ⟨rfl, ?_, by decide, by simp [threefoldTree, EndsEarly]⟩
    simp [threefoldTree, Tree.IsDerivation, Tree.label, RuleSet.mem_toList_ofList, threefold]
  obtain ⟨given, -, draws⟩ := (sentence_range threefold few 4 ⟨"S"⟩).2 threefoldTree permitted
  exact ⟨few, permitted, given, draws⟩

end PhraseChart.Sampling
