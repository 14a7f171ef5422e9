/-
# PhraseChart.Proofs.Grammar.Indexing -- the two indexes agree with the sequence

A rule set keeps one fact three times: the sequence of its rules, the left-hand
sides under each right-hand side, and the positions of each nonterminal's rules.
`Indexed` says that both indexes are what the sequence makes them, down to the
absence of a key that no rule has.  Insertion keeps it (`Indexed.insert`), so every
rule set built by insertions has it (`indexed_ofList`), and each reader of an index
then answers from the sequence alone:

* `Indexed.mem_heads`, `Indexed.nodup_heads`: the heads of a right-hand side;
* `Indexed.rulesFor_eq`: the rules of a nonterminal;
* `Indexed.contains_iff`, `toList_insertMany`: insertion drops repetitions and
  nothing else;
* `heads_ofList`: under one right-hand side, only its own insertions count;
* `Indexed.beq_of_toList_eq`: indexed rule sets with one sequence are equal.
-/
import Mathlib.Data.List.Induction
import Mathlib.Data.List.Nodup
import PhraseChart.Grammar.RuleSet

namespace PhraseChart

set_option autoImplicit false

/-! ## Repetitions -/

theorem eraseDups_concat {α : Type} [DecidableEq α] (l : List α) (a : α) :
    (l ++ [a]).eraseDups = if a ∈ l then l.eraseDups else l.eraseDups ++ [a] := by
  rw [List.eraseDups_append]
  by_cases h : a ∈ l <;> simp [List.removeAll, h, List.eraseDups_cons]

theorem nodup_eraseDups {α : Type} [DecidableEq α] (l : List α) : l.eraseDups.Nodup := by
  induction l using List.reverseRecOn with
  | nil => simp
  | append_singleton l a ih =>
      rw [eraseDups_concat]
      split
      · exact ih
      · rename_i fresh
        rw [← List.concat_eq_append]
        exact ih.concat (by rwa [List.mem_eraseDups])

theorem eraseDups_of_nodup {α : Type} [DecidableEq α] {l : List α} (h : l.Nodup) :
    l.eraseDups = l := by
  induction l using List.reverseRecOn with
  | nil => rfl
  | append_singleton l a ih =>
      rw [← List.concat_eq_append, List.nodup_concat] at h
      rw [eraseDups_concat, if_neg h.1, ih h.2]

theorem head?_eraseDups {α : Type} [DecidableEq α] (l : List α) : l.eraseDups.head? = l.head? := by
  cases l with
  | nil => rfl
  | cons a rest => rw [List.eraseDups_cons, List.head?_cons, List.head?_cons]

theorem nodup_flatMap_of {α β : Type} {l : List α} {f : α → List β} (h : l.Nodup)
    (each : ∀ a ∈ l, (f a).Nodup)
    (apart : ∀ a ∈ l, ∀ b ∈ l, ∀ c, c ∈ f a → c ∈ f b → a = b) : (l.flatMap f).Nodup := by
  refine List.nodup_flatMap.2 ⟨each, List.Pairwise.imp_of_mem ?_ h⟩
  intro a b inA inB different c fromA fromB
  exact different (apart a inA b inB c fromA fromB)

namespace RuleSet

/-! ## What the indexes should hold -/

/-- The left-hand sides of the rules with a right-hand side, in their order. -/
def headsAmong (rules : List Rule) (rhs : Rhs) : List Nonterminal :=
  (rules.filter fun rule => rule.rhs = rhs).map Rule.lhs

/-- The positions of the rules of a nonterminal, in their order. -/
def placesAmong (rules : List Rule) (lhs : Nonterminal) : List Nat :=
  (rules.zipIdx.filter fun (rule, _) => rule.lhs = lhs).map Prod.snd

/-- What an index holds for a key: nothing, rather than an empty entry. -/
def indexEntry {α : Type} (l : List α) : Option (Array α) :=
  if l = [] then none else some l.toArray

/-- Both indexes are what the sequence of rules makes them. -/
structure Indexed (s : RuleSet) : Prop where
  nodup : s.toList.Nodup
  byRhs : ∀ rhs, s.byRhs[rhs]? = indexEntry (headsAmong s.toList rhs)
  byLhs : ∀ lhs, s.byLhs[lhs]? = indexEntry (placesAmong s.toList lhs)

variable {s t : RuleSet}

theorem toList_getD_indexEntry {α : Type} (l : List α) :
    ((indexEntry l).getD #[]).toList = l := by
  unfold indexEntry
  split
  · rename_i empty
    simp [empty]
  · simp

theorem indexEntry_concat {α : Type} (l : List α) (a : α) :
    indexEntry (l ++ [a]) = some (((indexEntry l).getD #[]).push a) := by
  unfold indexEntry
  by_cases h : l = [] <;> simp [h]

theorem headsAmong_concat (rules : List Rule) (rule : Rule) (rhs : Rhs) :
    headsAmong (rules ++ [rule]) rhs =
      if rule.rhs = rhs then headsAmong rules rhs ++ [rule.lhs] else headsAmong rules rhs := by
  by_cases h : rule.rhs = rhs <;> simp [headsAmong, List.filter_append, h]

theorem placesAmong_concat (rules : List Rule) (rule : Rule) (lhs : Nonterminal) :
    placesAmong (rules ++ [rule]) lhs =
      if rule.lhs = lhs then placesAmong rules lhs ++ [rules.length]
      else placesAmong rules lhs := by
  by_cases h : rule.lhs = lhs <;> simp [placesAmong, List.zipIdx_append, List.filter_append, h]

theorem mem_headsAmong {rules : List Rule} {rhs : Rhs} {lhs : Nonterminal} :
    lhs ∈ headsAmong rules rhs ↔ ⟨lhs, rhs⟩ ∈ rules := by
  simp only [headsAmong, List.mem_map, List.mem_filter, decide_eq_true_eq]
  constructor
  · rintro ⟨rule, ⟨member, rfl⟩, rfl⟩
    exact member
  · intro member
    exact ⟨_, ⟨member, rfl⟩, rfl⟩

theorem nodup_headsAmong {rules : List Rule} (h : rules.Nodup) (rhs : Rhs) :
    (headsAmong rules rhs).Nodup := by
  refine List.Nodup.map_on ?_ (h.filter _)
  intro rule member other memberOther same
  simp only [List.mem_filter, decide_eq_true_eq] at member memberOther
  cases rule
  cases other
  simp_all

/-- Reading a sequence at the positions of a nonterminal's rules gives those rules. -/
theorem filterMap_placesAmong (rules : List Rule) (lhs : Nonterminal) :
    ((placesAmong rules lhs).filterMap fun place => rules[place]?) =
      rules.filter fun rule => rule.lhs = lhs := by
  have read (l : List Rule) (start : Nat) (found : ∀ i, l[i]? = rules[start + i]? ∨ l[i]? = none) :
      (((l.zipIdx start).filter fun (rule, _) => rule.lhs = lhs).map Prod.snd).filterMap
        (fun place => rules[place]?) = l.filter fun rule => rule.lhs = lhs := by
    induction l generalizing start with
    | nil => rfl
    | cons rule rest ih =>
        have here : rules[start]? = some rule := by simpa [eq_comm] using found 0
        have later := ih (start + 1) fun i => by
          have := found (i + 1)
          rwa [List.getElem?_cons_succ, show start + (i + 1) = start + 1 + i by omega] at this
        by_cases h : rule.lhs = lhs <;> simp [List.zipIdx_cons, h, here, later]
  exact read rules 0 fun i => .inl (by rw [Nat.zero_add])

/-! ## Insertion keeps the indexes -/

theorem Indexed.heads_eq (h : Indexed s) (rhs : Rhs) : s.heads rhs = headsAmong s.toList rhs := by
  rw [heads, Std.HashMap.getD_eq_getD_getElem?, h.byRhs, toList_getD_indexEntry]

theorem Indexed.mem_heads (h : Indexed s) {rhs : Rhs} {lhs : Nonterminal} :
    lhs ∈ s.heads rhs ↔ ⟨lhs, rhs⟩ ∈ s.toList := by
  rw [h.heads_eq, mem_headsAmong]

theorem Indexed.nodup_heads (h : Indexed s) (rhs : Rhs) : (s.heads rhs).Nodup := by
  rw [h.heads_eq]
  exact nodup_headsAmong h.nodup rhs

theorem Indexed.contains_iff (h : Indexed s) {rule : Rule} :
    s.contains rule = true ↔ rule ∈ s.toList := by
  rw [contains, List.contains_iff_mem, h.mem_heads]

theorem indexed_empty : Indexed ∅ where
  nodup := by simp [toList, EmptyCollection.emptyCollection, empty]
  byRhs := by simp [toList, EmptyCollection.emptyCollection, empty, headsAmong, indexEntry]
  byLhs := by simp [toList, EmptyCollection.emptyCollection, empty, placesAmong, indexEntry]

theorem Indexed.insert (h : Indexed s) (rule : Rule) : Indexed (s.insert rule) := by
  cases known : s.contains rule with
  | true => rwa [insert_of_contains known]
  | false =>
      have fresh : rule ∉ s.toList := by rw [← h.contains_iff, known]; exact Bool.false_ne_true
      have grown : (s.insert rule).toList = s.toList ++ [rule] := by
        rw [toList_insert, if_neg (by rw [known]; exact Bool.false_ne_true)]
      refine ⟨?_, fun rhs => ?_, fun lhs => ?_⟩
      · rw [grown, ← List.concat_eq_append]
        exact h.nodup.concat fresh
      · rw [grown, headsAmong_concat, getElem?_byRhs_insert known]
        split
        · rename_i same
          rw [indexEntry_concat, same, h.byRhs]
        · exact h.byRhs rhs
      · rw [grown, placesAmong_concat, getElem?_byLhs_insert known]
        split
        · rename_i same
          rw [indexEntry_concat, same, h.byLhs]
          rfl
        · exact h.byLhs lhs

theorem Indexed.insertMany (h : Indexed s) (rules : List Rule) : Indexed (s.insertMany rules) := by
  induction rules generalizing s with
  | nil => exact h
  | cons rule rest ih => exact ih (h.insert rule)

/-- **Every rule set built by insertions is indexed.** -/
theorem indexed_ofList (rules : List Rule) : Indexed (ofList rules) :=
  indexed_empty.insertMany rules

/-! ## Reading through an index -/

theorem Indexed.rulesFor_eq (h : Indexed s) (lhs : Nonterminal) :
    s.rulesFor lhs = s.toList.filter fun rule => rule.lhs = lhs := by
  rw [rulesFor, Std.HashMap.getD_eq_getD_getElem?, h.byLhs, toList_getD_indexEntry]
  simpa [toList] using filterMap_placesAmong s.toList lhs

/-- An index has a key just when it has an entry that is not empty. -/
theorem indexEntry_isSome {α : Type} {l : List α} : (indexEntry l).isSome = true ↔ l ≠ [] := by
  unfold indexEntry
  split <;> simp_all

theorem Indexed.contains_byRhs_iff (h : Indexed s) {rhs : Rhs} :
    s.byRhs.contains rhs = true ↔ s.heads rhs ≠ [] := by
  rw [Std.HashMap.contains_eq_isSome_getElem?, h.byRhs, indexEntry_isSome, h.heads_eq]

theorem placesAmong_ne_nil_iff {rules : List Rule} {lhs : Nonterminal} :
    placesAmong rules lhs ≠ [] ↔ ∃ rule ∈ rules, rule.lhs = lhs := by
  simp only [placesAmong, ne_eq, List.map_eq_nil_iff, List.filter_eq_nil_iff, decide_eq_true_eq,
    not_forall, not_not]
  constructor
  · rintro ⟨⟨rule, place⟩, member, same⟩
    exact ⟨rule, List.fst_mem_of_mem_zipIdx member, same⟩
  · rintro ⟨rule, member, same⟩
    obtain ⟨place, found⟩ := List.mem_iff_getElem?.1 member
    exact ⟨(rule, place), List.mem_zipIdx_iff_getElem?.2 found, same⟩

theorem Indexed.mem_rulesFor (h : Indexed s) {lhs : Nonterminal} {rule : Rule} :
    rule ∈ s.rulesFor lhs ↔ rule ∈ s.toList ∧ rule.lhs = lhs := by
  rw [h.rulesFor_eq, List.mem_filter, decide_eq_true_eq]

/-- The nonterminals that are defined are those with a rule. -/
theorem Indexed.defines_iff (h : Indexed s) {lhs : Nonterminal} :
    s.defines lhs = true ↔ ∃ rule ∈ s.toList, rule.lhs = lhs := by
  rw [defines, Std.HashMap.contains_eq_isSome_getElem?, h.byLhs, indexEntry_isSome,
    placesAmong_ne_nil_iff]

theorem mem_nonterminals {lhs : Nonterminal} :
    lhs ∈ s.nonterminals ↔ ∃ rule ∈ s.toList, rule.lhs = lhs := by
  rw [nonterminals, List.mem_eraseDups, List.mem_map]

theorem nodup_nonterminals (s : RuleSet) : s.nonterminals.Nodup := nodup_eraseDups _

/-- Insertions add the rules that are new, each once and in their order. -/
theorem toList_insertMany (h : Indexed s) (rules : List Rule) :
    (s.insertMany rules).toList = (s.toList ++ rules).eraseDups := by
  induction rules using List.reverseRecOn with
  | nil => simpa [insertMany] using (eraseDups_of_nodup h.nodup).symm
  | append_singleton rules rule ih =>
      have before := h.insertMany rules
      have seen : (s.insertMany rules).contains rule = true ↔ rule ∈ s.toList ++ rules := by
        rw [before.contains_iff, ih, List.mem_eraseDups]
      rw [insertMany, List.foldl_append, List.foldl_cons, List.foldl_nil, ← insertMany,
        toList_insert, ih, ← List.append_assoc, eraseDups_concat]
      simp only [seen]

theorem toList_ofList (rules : List Rule) : (ofList rules).toList = rules.eraseDups := by
  rw [ofList, toList_insertMany indexed_empty]
  rfl

theorem mem_toList_ofList {rules : List Rule} {rule : Rule} :
    rule ∈ (ofList rules).toList ↔ rule ∈ rules := by
  rw [toList_ofList, List.mem_eraseDups]

/-- The heads of a right-hand side are the left-hand sides that were inserted with it, each once. -/
theorem heads_ofList (rules : List Rule) (rhs : Rhs) :
    (ofList rules).heads rhs = (headsAmong rules rhs).eraseDups := by
  induction rules using List.reverseRecOn with
  | nil => exact indexed_empty.heads_eq rhs
  | append_singleton rules rule ih =>
      have last : ofList (rules ++ [rule]) = (ofList rules).insert rule := by
        rw [ofList, insertMany, List.foldl_append]
        rfl
      rw [last, heads_insert, headsAmong_concat]
      by_cases same : rule.rhs = rhs
      · subst same
        have known : (ofList rules).contains rule = true ↔
            rule.lhs ∈ headsAmong rules rule.rhs := by
          rw [contains, List.contains_iff_mem, ih, List.mem_eraseDups]
        rw [if_pos rfl, eraseDups_concat, ← ih]
        simp only [true_and, Bool.eq_false_iff, Ne, known, ite_not]
      · rw [if_neg (fun h => same h.1), if_neg same, ih]

/-- The indexes add nothing that equality could tell apart. -/
theorem Indexed.beq_of_toList_eq (h : Indexed s) (ht : Indexed t) (same : s.toList = t.toList) :
    (s == t) = true := by
  have rules : s.rules = t.rules := Array.toList_inj.1 same
  have byRhs : (s.byRhs == t.byRhs) = true := by
    refine (Std.HashMap.Equiv.of_forall_getElem?_eq fun rhs => ?_).beq
    rw [h.byRhs, ht.byRhs, same]
  have byLhs : (s.byLhs == t.byLhs) = true := by
    refine (Std.HashMap.Equiv.of_forall_getElem?_eq fun lhs => ?_).beq
    rw [h.byLhs, ht.byLhs, same]
  change (s.rules == t.rules && s.byRhs == t.byRhs && s.byLhs == t.byLhs) = true
  rw [rules, byRhs, byLhs]
  simp

theorem toList_eq_of_beq (h : (s == t) = true) : s.toList = t.toList := by
  change (s.rules == t.rules && s.byRhs == t.byRhs && s.byLhs == t.byLhs) = true at h
  simp only [Bool.and_eq_true, beq_iff_eq] at h
  rw [toList, toList, h.1.1]

end RuleSet

end PhraseChart
