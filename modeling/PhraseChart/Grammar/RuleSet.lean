/-
# PhraseChart.Grammar.RuleSet -- rules in the order of registration, indexed

A `RuleSet` holds rules without repetition, in the order in which they were
first inserted, and keeps two indexes beside that sequence:

* `byRhs` gives the left-hand sides that rewrite to a right-hand side.  The
  chart parser asks it for every word and for every pair of adjacent phrases.
* `byLhs` gives the positions of a nonterminal's rules.  The sampler and the
  printer ask it for the alternatives of one nonterminal.

Both indexes follow the order of registration.  Inserting a rule that is already
present changes nothing, not even by an empty index entry (`insert_of_contains`).
Equality of rule sets compares all three parts.

A `Grammar` is a rule set with a start symbol.
-/
import Std.Data.HashMap
import PhraseChart.Grammar.Rule

namespace PhraseChart

set_option autoImplicit false

structure RuleSet where
  rules : Array Rule
  byRhs : Std.HashMap Rhs (Array Nonterminal)
  byLhs : Std.HashMap Nonterminal (Array Nat)

namespace RuleSet

def empty : RuleSet := { rules := #[], byRhs := ∅, byLhs := ∅ }

instance : EmptyCollection RuleSet := ⟨empty⟩

instance : BEq RuleSet where
  beq s t := s.rules == t.rules && s.byRhs == t.byRhs && s.byLhs == t.byLhs

/-! ### Reading -/

/-- The number of rules. -/
def size (s : RuleSet) : Nat := s.rules.size

def isEmpty (s : RuleSet) : Bool := s.rules.isEmpty

/-- The rules in the order of their registration. -/
def toList (s : RuleSet) : List Rule := s.rules.toList

/-- The nonterminals that rewrite to `rhs`, in the order of registration. -/
def heads (s : RuleSet) (rhs : Rhs) : List Nonterminal := (s.byRhs.getD rhs #[]).toList

/-- The heads of a list of names: none unless it holds one word or two
nonterminals. -/
def headsOfNames (s : RuleSet) (names : List String) : List Nonterminal :=
  match Rhs.ofNames? names with
  | some rhs => s.heads rhs
  | none => []

/-- The rules that rewrite `lhs`, in the order of registration. -/
def rulesFor (s : RuleSet) (lhs : Nonterminal) : List Rule :=
  (s.byLhs.getD lhs #[]).toList.filterMap fun position => s.rules[position]?

def defines (s : RuleSet) (lhs : Nonterminal) : Bool := s.byLhs.contains lhs

/-- Every nonterminal on a right-hand side has a rule. -/
def Closed (s : RuleSet) : Prop :=
  ∀ rule ∈ s.toList, ∀ name ∈ rule.rhs.nonterminals, s.defines name = true

def contains (s : RuleSet) (rule : Rule) : Bool := (s.heads rule.rhs).contains rule.lhs

/-- The left-hand sides, each once, by their first rule. -/
def nonterminals (s : RuleSet) : List Nonterminal := (s.toList.map Rule.lhs).eraseDups

/-- The words of the lexical rules, each once, by their first rule. -/
def words (s : RuleSet) : List Word := (s.toList.filterMap fun rule => rule.rhs.word?).eraseDups

/-! ### Inserting -/

/-- The index with an entry for the key: the one that is there, or else an empty one. -/
def touch {κ α : Type} [BEq κ] [Hashable κ] (index : Std.HashMap κ (Array α)) (key : κ) :
    Std.HashMap κ (Array α) :=
  if index.contains key then index else index.insert key #[]

/-- Registers a rule unless it is present already, and tells whether it was new.  The entry of the
right-hand side is made before it is searched. -/
def insertIfNew (s : RuleSet) (rule : Rule) : Bool × RuleSet :=
  let byRhs := touch s.byRhs rule.rhs
  if (byRhs.getD rule.rhs #[]).contains rule.lhs then (false, { s with byRhs })
  else
    (true,
      { rules := s.rules.push rule
        byRhs := byRhs.modify rule.rhs (·.push rule.lhs)
        byLhs := (touch s.byLhs rule.lhs).modify rule.lhs (·.push s.rules.size) })

def insert (s : RuleSet) (rule : Rule) : RuleSet := (s.insertIfNew rule).2

def insertMany (s : RuleSet) (rules : List Rule) : RuleSet := rules.foldl insert s

def ofList (rules : List Rule) : RuleSet := insertMany ∅ rules

/-- Lets `lhs` stand for each of the words, and counts the rules that were new. -/
def insertWords (s : RuleSet) (lhs : Nonterminal) (words : List Word) : Nat × RuleSet :=
  words.foldl
    (fun (added, s) word =>
      let (isNew, s) := s.insertIfNew ⟨lhs, .lexical word⟩
      (if isNew then added + 1 else added, s))
    (0, s)

/-! ### Printing -/

/-- All alternatives of one nonterminal on one line. -/
def renderLine (s : RuleSet) (lhs : Nonterminal) : String :=
  lhs.name ++ " = " ++ " | ".intercalate ((s.rulesFor lhs).map fun rule => rule.rhs.render)

/-- One line for each nonterminal, in the form in which grammar files are written. -/
def renderLines (s : RuleSet) : List String := s.nonterminals.map s.renderLine

def render (s : RuleSet) : String := String.join (s.renderLines.map (· ++ "\n"))

/-! ### One entry -/

section Index

variable {κ α : Type} [BEq κ] [Hashable κ] {index : Std.HashMap κ (Array α)} {key : κ}

theorem touch_eq_self (known : index.contains key = true) : touch index key = index := if_pos known

variable [LawfulBEq κ] [LawfulHashable κ]

theorem getElem?_touch (index : Std.HashMap κ (Array α)) (key other : κ) :
    (touch index key)[other]? =
      if key == other then some (index[key]?.getD #[]) else index[other]? := by
  unfold touch
  by_cases known : index.contains key = true
  · obtain ⟨entry, found⟩ := Option.isSome_iff_exists.1
      (Std.HashMap.contains_eq_isSome_getElem?.symm.trans known)
    rw [if_pos known]
    split
    · rename_i same
      rw [← eq_of_beq same, found, Option.getD_some]
    · rfl
  · have missing : index[key]? = none :=
      Std.HashMap.getElem?_eq_none_of_contains_eq_false (by simpa using known)
    rw [if_neg known, missing, Option.getD_none, Std.HashMap.getElem?_insert]

/-- An entry that was made is empty, which is what is read where there is none. -/
theorem getD_touch (index : Std.HashMap κ (Array α)) (key : κ) :
    (touch index key).getD key #[] = index.getD key #[] := by
  rw [Std.HashMap.getD_eq_getD_getElem?, getElem?_touch, if_pos BEq.rfl, Option.getD_some,
    Std.HashMap.getD_eq_getD_getElem?]

/-- A value that is added to an entry is in that entry only. -/
theorem getElem?_modify_touch (index : Std.HashMap κ (Array α)) (key other : κ) (value : α) :
    ((touch index key).modify key (·.push value))[other]? =
      if key == other then some ((index[key]?.getD #[]).push value) else index[other]? := by
  rw [Std.HashMap.getElem?_modify, getElem?_touch, getElem?_touch, if_pos BEq.rfl,
    Option.map_some]
  split <;> rfl

end Index

/-! ### One insertion, seen through each index -/

variable {s : RuleSet} {rule : Rule}

/-- A right-hand side with heads has an entry. -/
theorem contains_byRhs_of_contains (known : s.contains rule = true) :
    s.byRhs.contains rule.rhs = true := by
  cases entered : s.byRhs.contains rule.rhs with
  | true => rfl
  | false =>
      rw [contains, heads, Std.HashMap.getD_eq_fallback_of_contains_eq_false entered] at known
      cases known

/-- **A rule that is present is refused, and nothing changes**: its right-hand side has heads, so
the entry that is made for it is there already. -/
theorem insertIfNew_of_contains (known : s.contains rule = true) :
    s.insertIfNew rule = (false, s) := by
  have listed : (s.byRhs.getD rule.rhs #[]).contains rule.lhs = true := by
    simpa [contains, heads] using known
  rw [insertIfNew, touch_eq_self (contains_byRhs_of_contains known)]
  exact if_pos listed

/-- A rule that is not present goes to the end of the sequence and of its two entries. -/
theorem insertIfNew_of_not_contains (fresh : s.contains rule = false) :
    s.insertIfNew rule =
      (true,
        { rules := s.rules.push rule
          byRhs := (touch s.byRhs rule.rhs).modify rule.rhs (·.push rule.lhs)
          byLhs := (touch s.byLhs rule.lhs).modify rule.lhs (·.push s.rules.size) }) := by
  have unlisted : ¬ (s.byRhs.getD rule.rhs #[]).contains rule.lhs = true := by
    simpa [contains, heads] using fresh
  rw [insertIfNew, getD_touch]
  exact if_neg unlisted

theorem insert_of_contains (known : s.contains rule = true) : s.insert rule = s := by
  rw [insert, insertIfNew_of_contains known]

theorem fst_insertIfNew (s : RuleSet) (rule : Rule) :
    (s.insertIfNew rule).1 = !s.contains rule := by
  cases known : s.contains rule with
  | false => rw [insertIfNew_of_not_contains known, Bool.not_false]
  | true => rw [insertIfNew_of_contains known, Bool.not_true]

theorem toList_insert (s : RuleSet) (rule : Rule) :
    (s.insert rule).toList = if s.contains rule then s.toList else s.toList ++ [rule] := by
  cases known : s.contains rule with
  | false => simp [insert, insertIfNew_of_not_contains known, toList]
  | true => rw [insert_of_contains known, if_pos rfl]

theorem getElem?_byRhs_insert (fresh : s.contains rule = false) (rhs : Rhs) :
    (s.insert rule).byRhs[rhs]? =
      if rule.rhs = rhs then some ((s.byRhs[rule.rhs]?.getD #[]).push rule.lhs)
      else s.byRhs[rhs]? := by
  rw [insert, insertIfNew_of_not_contains fresh, getElem?_modify_touch]
  simp only [beq_iff_eq]

theorem getElem?_byLhs_insert (fresh : s.contains rule = false) (lhs : Nonterminal) :
    (s.insert rule).byLhs[lhs]? =
      if rule.lhs = lhs then some ((s.byLhs[rule.lhs]?.getD #[]).push s.rules.size)
      else s.byLhs[lhs]? := by
  rw [insert, insertIfNew_of_not_contains fresh, getElem?_modify_touch]
  simp only [beq_iff_eq]

theorem heads_insert (s : RuleSet) (rule : Rule) (rhs : Rhs) :
    (s.insert rule).heads rhs =
      if rule.rhs = rhs ∧ s.contains rule = false then s.heads rhs ++ [rule.lhs]
      else s.heads rhs := by
  cases known : s.contains rule with
  | false =>
      rw [heads, Std.HashMap.getD_eq_getD_getElem?, getElem?_byRhs_insert known]
      by_cases same : rule.rhs = rhs <;> simp [same, heads, Std.HashMap.getD_eq_getD_getElem?]
  | true => simp [insert_of_contains known]

end RuleSet

/-- A rule set with a start symbol. -/
structure Grammar where
  start : Nonterminal
  rules : RuleSet

instance : BEq Grammar where
  beq g h := g.start == h.start && g.rules == h.rules

end PhraseChart
