/-
# PhraseChart.Proofs.Grammar.Renaming -- rules under other names

Renaming gives every nonterminal and every word another name, by two maps that need not have
anything to do with each other.  If both are injective, a rule set of renamed rules answers for a
renamed right-hand side what the original answers for the original one (`heads_ofList_rename`):
repetitions stay repetitions, and right-hand sides that differ stay different.

`RuleSet.Mirrors` keeps of this only what a parse of a sentence asks for, namely the words of that
sentence and all pairs of nonterminals.  It says nothing of where the rules come from, so it also
holds between two rule sets that were never renamed but agree on these questions.
-/
import PhraseChart.Proofs.Grammar.Indexing

namespace PhraseChart

set_option autoImplicit false

variable {f : Nonterminal → Nonterminal} {g : Word → Word}

/-! ## Renaming -/

def Rhs.rename (f : Nonterminal → Nonterminal) (g : Word → Word) : Rhs → Rhs
  | .lexical word => .lexical (g word)
  | .binary left right => .binary (f left) (f right)

def Rule.rename (f : Nonterminal → Nonterminal) (g : Word → Word) (rule : Rule) : Rule :=
  { lhs := f rule.lhs, rhs := rule.rhs.rename f g }

theorem Rhs.rename_inj (hf : Function.Injective f) (hg : Function.Injective g) {one two : Rhs} :
    one.rename f g = two.rename f g ↔ one = two := by
  cases one <;> cases two <;> simp [rename, hf.eq_iff, hg.eq_iff]

theorem eraseDups_map {α β : Type} [DecidableEq α] [DecidableEq β] {φ : α → β}
    (injective : Function.Injective φ) (l : List α) :
    (l.map φ).eraseDups = l.eraseDups.map φ := by
  induction l using List.reverseRecOn with
  | nil => rfl
  | append_singleton l a ih =>
      rw [List.map_append, List.map_singleton, eraseDups_concat, eraseDups_concat, ih]
      simp only [List.mem_map_of_injective injective]
      split <;> simp

namespace RuleSet

variable {rules others : RuleSet} {tokens : List Word}

theorem headsAmong_rename (hf : Function.Injective f) (hg : Function.Injective g)
    (rules : List Rule) (rhs : Rhs) :
    headsAmong (rules.map (Rule.rename f g)) (rhs.rename f g) = (headsAmong rules rhs).map f := by
  rw [headsAmong, headsAmong, List.filter_map, List.map_map, List.map_map]
  simp only [Function.comp_def, Rule.rename, Rhs.rename_inj hf hg]

/-- **Renamed rules rewrite to a renamed right-hand side what the rules rewrite to the
right-hand side.** -/
theorem heads_ofList_rename (hf : Function.Injective f) (hg : Function.Injective g)
    (rules : List Rule) (rhs : Rhs) :
    (ofList (rules.map (Rule.rename f g))).heads (rhs.rename f g) =
      ((ofList rules).heads rhs).map f := by
  rw [heads_ofList, heads_ofList, headsAmong_rename hf hg, eraseDups_map hf]

/-! ## What a parse asks for -/

/-- Up to the two maps, both rule sets rewrite the same symbols to the words of a sentence, and to
every pair of nonterminals. -/
structure Mirrors (f : Nonterminal → Nonterminal) (g : Word → Word) (tokens : List Word)
    (rules others : RuleSet) : Prop where
  lexical : ∀ word ∈ tokens,
    others.heads (.lexical (g word)) = (rules.heads (.lexical word)).map f
  binary : ∀ left right,
    others.heads (.binary (f left) (f right)) = (rules.heads (.binary left right)).map f

theorem mirrors_rename (hf : Function.Injective f) (hg : Function.Injective g)
    (rules : List Rule) (tokens : List Word) :
    Mirrors f g tokens (ofList rules) (ofList (rules.map (Rule.rename f g))) where
  lexical word _ := heads_ofList_rename hf hg rules (.lexical word)
  binary left right := heads_ofList_rename hf hg rules (.binary left right)

end RuleSet

end PhraseChart
