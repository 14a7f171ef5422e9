/-
# PhraseChart.Proofs.Grammar.Registration -- what a sequence of insertions leaves

Rules are registered one by one, as a pair of nonterminals, or by the words of one
nonterminal.  Each of these calls is an insertion of a list of rules (`perform_eq`), so a
sequence of calls is one insertion of all their rules (`performAll_eq`) and leaves an
indexed rule set.

`performAll_agrees` is what a user of rule sets may rely on: every reader answers from the
sequence of the distinct rules, a call tells what it has added, and equality is equality of
these sequences.
-/
import PhraseChart.Proofs.Grammar.Grouping

namespace PhraseChart

set_option autoImplicit false

/-- A call that registers rules. -/
inductive Registration where
  | single (rule : Rule)
  | binary (lhs left right : Nonterminal)
  | lexical (lhs : Nonterminal) (words : List Word)
deriving DecidableEq, Repr

namespace Registration

/-- The rules that a call registers if they are new. -/
def rules : Registration → List Rule
  | .single rule => [rule]
  | .binary lhs left right => [⟨lhs, .binary left right⟩]
  | .lexical lhs words => words.map fun word => ⟨lhs, .lexical word⟩

/-- The rule set after a call. -/
def perform (s : RuleSet) : Registration → RuleSet
  | .single rule => (s.insertIfNew rule).2
  | .binary lhs left right => (s.insertIfNew ⟨lhs, .binary left right⟩).2
  | .lexical lhs words => (s.insertWords lhs words).2

/-- The rule set after a sequence of calls, from the empty one on. -/
def performAll (calls : List Registration) : RuleSet := calls.foldl perform ∅

end Registration

namespace RuleSet

variable {s : RuleSet}

/-! ## Words of one nonterminal -/

/-- The count and the rule set after one word more. -/
def countWord (lhs : Nonterminal) (counted : Nat × RuleSet) (word : Word) : Nat × RuleSet :=
  (if (counted.2.insertIfNew ⟨lhs, .lexical word⟩).1 then counted.1 + 1 else counted.1,
    counted.2.insert ⟨lhs, .lexical word⟩)

theorem insertWords_eq_foldl (s : RuleSet) (lhs : Nonterminal) (words : List Word) :
    s.insertWords lhs words = words.foldl (countWord lhs) (0, s) := rfl

theorem size_insert (s : RuleSet) (rule : Rule) :
    (s.insert rule).size = if (s.insertIfNew rule).1 then s.size + 1 else s.size := by
  have grown := congrArg List.length (toList_insert s rule)
  rw [fst_insertIfNew]
  cases known : s.contains rule <;> simpa [known, toList, size] using grown

/-- A word is counted just when the rule set grows by it. -/
theorem countWord_size (lhs : Nonterminal) (counted : Nat × RuleSet) (word : Word) :
    (countWord lhs counted word).1 + counted.2.size =
      counted.1 + (countWord lhs counted word).2.size := by
  simp only [countWord, size_insert]
  split <;> omega

theorem foldl_countWord_size (lhs : Nonterminal) (counted : Nat × RuleSet) (words : List Word) :
    (words.foldl (countWord lhs) counted).1 + counted.2.size =
      counted.1 + (words.foldl (countWord lhs) counted).2.size := by
  induction words generalizing counted with
  | nil => rfl
  | cons word rest ih =>
      have first := countWord_size lhs counted word
      have later := ih (countWord lhs counted word)
      rw [List.foldl_cons]
      omega

theorem snd_insertWords (s : RuleSet) (lhs : Nonterminal) (words : List Word) :
    (s.insertWords lhs words).2 = s.insertMany (words.map fun word => ⟨lhs, .lexical word⟩) := by
  have fold (counted : Nat × RuleSet) : (words.foldl (countWord lhs) counted).2 =
      counted.2.insertMany (words.map fun word => ⟨lhs, .lexical word⟩) := by
    induction words generalizing counted with
    | nil => rfl
    | cons word rest ih => exact ih (countWord lhs counted word)
  exact fold (0, s)

/-- The number that is returned is the number of rules that were added. -/
theorem fst_insertWords (s : RuleSet) (lhs : Nonterminal) (words : List Word) :
    (s.insertWords lhs words).1 + s.size = (s.insertWords lhs words).2.size := by
  have counted := foldl_countWord_size lhs (0, s) words
  rwa [← insertWords_eq_foldl, Nat.zero_add] at counted

end RuleSet

/-! ## Sequences of calls -/

namespace Registration

theorem perform_eq (s : RuleSet) (call : Registration) :
    perform s call = s.insertMany call.rules := by
  cases call with
  | single rule => rfl
  | binary lhs left right => rfl
  | lexical lhs words => exact s.snd_insertWords lhs words

theorem performAll_eq (calls : List Registration) :
    performAll calls = .ofList (calls.flatMap rules) := by
  have run (s : RuleSet) : calls.foldl perform s = s.insertMany (calls.flatMap rules) := by
    induction calls generalizing s with
    | nil => rfl
    | cons call rest ih =>
        rw [List.foldl_cons, ih, perform_eq, List.flatMap_cons, RuleSet.insertMany,
          RuleSet.insertMany, RuleSet.insertMany, List.foldl_append]
  exact run ∅

theorem indexed_performAll (calls : List Registration) : (performAll calls).Indexed := by
  rw [performAll_eq]
  exact RuleSet.indexed_ofList _

/-- **Any sequence of calls leaves one list of rules, read in several ways.**  The list holds
the rules of the calls without their repetitions.  The heads of a right-hand side, the rules of a
nonterminal and the nonterminals that are defined are selections from it, without an empty entry
in an index, and the rules of all nonterminals make it up again.  Inserting a rule of the list
is refused and changes nothing, inserting words returns the growth, and two rule sets are equal
just when their lists are. -/
theorem performAll_agrees (calls : List Registration) :
    (performAll calls).toList = (calls.flatMap rules).eraseDups ∧
    (∀ rhs,
      (performAll calls).heads rhs =
        ((performAll calls).toList.filter fun rule => rule.rhs = rhs).map Rule.lhs ∧
      ((performAll calls).heads rhs).Nodup ∧
      ((performAll calls).byRhs.contains rhs = true ↔ (performAll calls).heads rhs ≠ [])) ∧
    (∀ lhs,
      (performAll calls).rulesFor lhs =
        ((performAll calls).toList.filter fun rule => rule.lhs = lhs) ∧
      ((performAll calls).defines lhs = true ↔ (performAll calls).rulesFor lhs ≠ [])) ∧
    ((performAll calls).nonterminals.flatMap (performAll calls).rulesFor).Perm
      (performAll calls).toList ∧
    (∀ rule,
      (((performAll calls).insertIfNew rule).1 = false ↔ rule ∈ (performAll calls).toList) ∧
      ((performAll calls).insertIfNew rule = (false, performAll calls) ↔
        rule ∈ (performAll calls).toList)) ∧
    (∀ lhs words,
      ((performAll calls).insertWords lhs words).1 + (performAll calls).size =
        ((performAll calls).insertWords lhs words).2.size) ∧
    ∀ others, (performAll calls == performAll others) = true ↔
      (performAll calls).toList = (performAll others).toList := by
  have indexed := indexed_performAll calls
  have refused (rule : Rule) : ((performAll calls).insertIfNew rule).1 = false ↔
      rule ∈ (performAll calls).toList := by
    rw [RuleSet.fst_insertIfNew, Bool.not_eq_false', indexed.contains_iff]
  refine ⟨?_,
    fun rhs => ⟨indexed.heads_eq rhs, indexed.nodup_heads rhs, indexed.contains_byRhs_iff⟩,
    fun lhs => ⟨indexed.rulesFor_eq lhs, ?_⟩, ?_, fun rule => ⟨refused rule, ?_, ?_⟩,
    fun lhs words => RuleSet.fst_insertWords _ lhs words, fun others => ⟨?_, ?_⟩⟩
  · rw [performAll_eq, RuleSet.toList_ofList]
  · rw [indexed.defines_iff, indexed.rulesFor_ne_nil_iff, RuleSet.mem_nonterminals]
  · have grouped := indexed.perm_grouped
    rwa [indexed.toList_grouped] at grouped
  · intro unchanged
    exact (refused rule).1 (by rw [unchanged])
  · intro known
    exact RuleSet.insertIfNew_of_contains (indexed.contains_iff.2 known)
  · exact RuleSet.toList_eq_of_beq
  · exact indexed.beq_of_toList_eq (indexed_performAll others)

end Registration

end PhraseChart
