/-
# PhraseChart.Proofs.Grammar.Grouping -- rules grouped by their left-hand sides

A printed rule set gives up the order of registration: it lists the nonterminals by
their first rule and the rules of each together.  `RuleSet.grouped` is the rule set that
has been registered in that order.

Grouping is a permutation (`perm_grouped`) that every reader but `toList` and `heads` is
blind to: the nonterminals, the rules of each and the printed text stay the same
(`nonterminals_grouped`, `rulesFor_grouped`, `render_grouped`).
-/
import PhraseChart.Proofs.Grammar.Indexing

namespace PhraseChart

set_option autoImplicit false

/-! ## Lists that are joined from groups -/

section Groups

variable {α β : Type} [DecidableEq α] {keys : List α} {group : α → List β} {key : β → α}

/-- Each group can be selected by its key. -/
theorem filter_flatMap_of_key (distinct : keys.Nodup)
    (own : ∀ a ∈ keys, ∀ b ∈ group a, key b = a) (a : α) :
    ((keys.flatMap group).filter fun b => key b = a) = if a ∈ keys then group a else [] := by
  induction keys with
  | nil => rfl
  | cons first rest ih =>
      obtain ⟨fresh, distinct⟩ := List.nodup_cons.1 distinct
      obtain ⟨here, others⟩ := List.forall_mem_cons.1 own
      have later := ih distinct others
      rw [List.flatMap_cons, List.filter_append, later]
      by_cases same : first = a
      · subst same
        have all : (group first).filter (fun b => key b = first) = group first :=
          List.filter_eq_self.2 fun b member => decide_eq_true (here b member)
        rw [all, if_neg fresh, if_pos (by simp), List.append_nil]
      · have none : (group first).filter (fun b => key b = a) = [] := by
          apply List.filter_eq_nil_iff.2
          intro b member
          simpa [here b member] using same
        have elsewhere : a ∈ first :: rest ↔ a ∈ rest := by
          rw [List.mem_cons, or_iff_right (Ne.symm same)]
        simp only [none, elsewhere, List.nil_append]

theorem eraseDups_of_forall_eq {l : List α} {a : α} (some_ : l ≠ []) (all : ∀ b ∈ l, b = a) :
    l.eraseDups = [a] := by
  cases l with
  | nil => exact absurd rfl some_
  | cons b rest =>
      obtain rfl := all b (by simp)
      have none : rest.filter (fun c => !c == b) = [] := by
        apply List.filter_eq_nil_iff.2
        intro c member
        simp [all c (List.mem_cons_of_mem _ member)]
      rw [List.eraseDups_cons, none, List.eraseDups_nil]

/-- The keys of the groups are met in the order of the groups. -/
theorem eraseDups_keys (distinct : keys.Nodup) (some_ : ∀ a ∈ keys, group a ≠ [])
    (own : ∀ a ∈ keys, ∀ b ∈ group a, key b = a) :
    ((keys.flatMap group).map key).eraseDups = keys := by
  induction keys with
  | nil => rfl
  | cons first rest ih =>
      obtain ⟨fresh, distinct⟩ := List.nodup_cons.1 distinct
      obtain ⟨someHere, someLater⟩ := List.forall_mem_cons.1 some_
      obtain ⟨ownHere, ownLater⟩ := List.forall_mem_cons.1 own
      have later := ih distinct someLater ownLater
      have here : ∀ k ∈ (group first).map key, k = first := List.forall_mem_map.2 ownHere
      have apart : ((rest.flatMap group).map key).removeAll ((group first).map key) =
          (rest.flatMap group).map key := by
        apply List.filter_eq_self.2
        intro k member
        obtain ⟨b, inGroups, rfl⟩ := List.mem_map.1 member
        obtain ⟨a, isKey, inGroup⟩ := List.mem_flatMap.1 inGroups
        have known := ownLater a isKey b inGroup
        have absent : key b ∉ (group first).map key := by
          intro inFirst
          exact fresh (by rwa [← here _ inFirst, known])
        simpa using absent
      rw [List.flatMap_cons, List.map_append, List.eraseDups_append, apart, later,
        eraseDups_of_forall_eq (by simpa using someHere) here, List.singleton_append]

end Groups

namespace RuleSet

/-- The rules in the order in which they are printed. -/
def groupedRules (s : RuleSet) : List Rule := s.nonterminals.flatMap s.rulesFor

/-- The rule set with its rules registered in the order in which they are printed. -/
def grouped (s : RuleSet) : RuleSet := ofList s.groupedRules

variable {s : RuleSet}

/-! ## The rules of each nonterminal -/

theorem Indexed.lhs_of_mem_rulesFor (h : Indexed s) {lhs : Nonterminal} {rule : Rule}
    (member : rule ∈ s.rulesFor lhs) : rule.lhs = lhs := (h.mem_rulesFor.1 member).2

theorem Indexed.rulesFor_ne_nil_iff (h : Indexed s) {lhs : Nonterminal} :
    s.rulesFor lhs ≠ [] ↔ lhs ∈ s.nonterminals := by
  simp only [mem_nonterminals, ← h.mem_rulesFor]
  exact ⟨List.exists_mem_of_ne_nil _, fun ⟨_, member⟩ => List.ne_nil_of_mem member⟩

theorem Indexed.mem_groupedRules (h : Indexed s) {rule : Rule} :
    rule ∈ s.groupedRules ↔ rule ∈ s.toList := by
  simp only [groupedRules, List.mem_flatMap, h.mem_rulesFor, mem_nonterminals]
  constructor
  · rintro ⟨_, _, member, _⟩
    exact member
  · intro member
    exact ⟨rule.lhs, ⟨rule, member, rfl⟩, member, rfl⟩

theorem Indexed.nodup_groupedRules (h : Indexed s) : s.groupedRules.Nodup := by
  refine nodup_flatMap_of (nodup_nonterminals s) ?_ ?_
  · intro lhs _
    rw [h.rulesFor_eq]
    exact h.nodup.filter _
  · intro lhs _ lhs' _ rule one two
    exact (h.lhs_of_mem_rulesFor one).symm.trans (h.lhs_of_mem_rulesFor two)

/-! ## What grouping keeps -/

theorem Indexed.toList_grouped (h : Indexed s) : s.grouped.toList = s.groupedRules := by
  rw [grouped, toList_ofList, eraseDups_of_nodup h.nodup_groupedRules]

theorem indexed_grouped (s : RuleSet) : s.grouped.Indexed := indexed_ofList _

/-- **Grouping loses no rule and adds none.** -/
theorem Indexed.perm_grouped (h : Indexed s) : s.grouped.toList.Perm s.toList := by
  rw [h.toList_grouped]
  exact (List.perm_ext_iff_of_nodup h.nodup_groupedRules h.nodup).2 fun _ => h.mem_groupedRules

theorem Indexed.nonterminals_grouped (h : Indexed s) : s.grouped.nonterminals = s.nonterminals := by
  rw [nonterminals, h.toList_grouped]
  exact eraseDups_keys (nodup_nonterminals s) (fun _ => h.rulesFor_ne_nil_iff.2)
    (fun _ _ _ => h.lhs_of_mem_rulesFor)

theorem Indexed.rulesFor_grouped (h : Indexed s) (lhs : Nonterminal) :
    s.grouped.rulesFor lhs = s.rulesFor lhs := by
  rw [(indexed_grouped s).rulesFor_eq, h.toList_grouped, groupedRules,
    filter_flatMap_of_key (nodup_nonterminals s) fun _ _ _ => h.lhs_of_mem_rulesFor]
  by_cases known : lhs ∈ s.nonterminals
  · rw [if_pos known]
  · rw [if_neg known]
    exact (not_not.1 (mt h.rulesFor_ne_nil_iff.1 known)).symm

theorem Indexed.render_grouped (h : Indexed s) : s.grouped.render = s.render := by
  have line : s.grouped.renderLine = s.renderLine := by
    funext lhs
    rw [renderLine, renderLine, h.rulesFor_grouped]
  rw [render, render, renderLines, renderLines, h.nonterminals_grouped, line]

end RuleSet

end PhraseChart
