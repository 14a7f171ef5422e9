/-
# PhraseChart.Proofs.Chart.Filling -- filling the cells of a chart

Filling one cell appends the nodes that the cells of shorter spans call for and puts
their ids into the cell (`fill_adds`); it touches no other cell (`ids_fill_ne`) and
no old node.

`Filled rules tokens done c` says of a chart under way that the cells of the spans
in `done` already expand to the derivations of those spans.  Filling the next cell
keeps this and adds that cell, provided the cells of its parts are done
(`Filled.fill`).  The order of `spans` provides it: spans of parts are shorter and so
come first (`parts_mem_of_order`).  Hence the finished chart has all cells filled
(`filled_ofTokens`), for every rule set whatever.
-/
import PhraseChart.Chart
import PhraseChart.Proofs.Chart.Derivations
import PhraseChart.Proofs.Forest.Growth

namespace PhraseChart

set_option autoImplicit false

theorem Triangle.exists_get? {α : Type} (t : Triangle α) {first last : Nat} (ordered : first ≤ last)
    (inside : last < t.side) : ∃ a, t.get? first last = some a := by
  have place := Triangle.index?_eq_some ordered inside
  have fits := Triangle.index?_lt_size place
  rw [← t.size_cells] at fits
  exact ⟨_, by rw [Triangle.get?, place, Option.bind_some, Array.getElem?_eq_getElem fits]⟩

/-- The order of filling: shorter spans first, then from left to right. -/
def Span.Before (one two : Span) : Prop :=
  one.last - one.first < two.last - two.first ∨
    one.last - one.first = two.last - two.first ∧ one.first < two.first

namespace Chart

variable {rules : RuleSet} {tokens : List Word} {c : Chart} {span : Span}

/-! ## One cell -/

/-- Every id in a cell belongs to the forest of the chart. -/
def CellsKnown (c : Chart) : Prop :=
  ∀ first last, ∀ id ∈ c.ids first last, id.index < c.forest.size

/-- The nodes that filling the cell of a span appends. -/
def nodesOver (rules : RuleSet) (c : Chart) (span : Span) : List Node :=
  if span.first = span.last then
    match c.tokens[span.first]? with
    | some word => (rules.heads (.lexical word)).map fun label => Node.leaf label span.first
    | none => []
  else
    (splits span).flatMap fun split =>
      branchesAmong rules c.forest (c.ids span.first split) (c.ids (split + 1) span.last)

theorem wordNodes_adds (rules : RuleSet) (tokens : List Word) (f : Forest) (position : Nat) :
    f.Adds
      (match tokens[position]? with
        | some word => (rules.heads (.lexical word)).map fun label => Node.leaf label position
        | none => [])
      (wordNodes rules tokens f position) := by
  unfold wordNodes
  cases tokens[position]? with
  | none => exact Forest.adds_nil f
  | some word => exact Forest.adds_addLeaves f _ position

theorem phraseNodes_adds (known : c.CellsKnown) (span : Span) :
    c.forest.Adds
      ((splits span).flatMap fun split =>
        branchesAmong rules c.forest (c.ids span.first split) (c.ids (split + 1) span.last))
      (phraseNodes rules c.cells c.forest span) := by
  -- The splits that are still to come find a forest that has grown from the chart's.
  have joined (pending : List Nat) (d : Composition) (running : d.stopped = false)
      (base : c.forest.IsStartOf d.forest) :
      d.Appends
        (pending.flatMap fun split =>
          branchesAmong rules c.forest (c.ids span.first split) (c.ids (split + 1) span.last))
        (pending.foldl
          (fun joined split => joined.joinAll rules (idsIn c.cells span.first split)
            (idsIn c.cells (split + 1) span.last)) d) := by
    induction pending generalizing d with
    | nil => exact .refl running
    | cons split rest ih =>
        have here := Composition.joinAll_appends rules running base
          (known span.first split) (known (split + 1) span.last)
        rw [List.flatMap_cons, List.foldl_cons]
        exact here.trans (ih _ here.running (base.trans here.isStartOf))
  exact (joined (splits span) (.start c.forest) rfl (Forest.IsStartOf.refl _)).adds_of_start

/-- The ids that filling a cell puts into it, and the forest that it leaves. -/
def spanNodes (rules : RuleSet) (c : Chart) (span : Span) : List NodeId × Forest :=
  if span.first = span.last then wordNodes rules c.tokens c.forest span.first
  else phraseNodes rules c.cells c.forest span

theorem fill_eq (rules : RuleSet) (c : Chart) (span : Span) :
    fill rules c span =
      { tokens := c.tokens
        cells := c.cells.set span.first span.last (spanNodes rules c span).1
        forest := (spanNodes rules c span).2 } := rfl

theorem spanNodes_adds (rules : RuleSet) (known : c.CellsKnown) (span : Span) :
    c.forest.Adds (nodesOver rules c span) (spanNodes rules c span) := by
  unfold nodesOver spanNodes
  split
  · exact wordNodes_adds rules c.tokens c.forest span.first
  · exact phraseNodes_adds known span

theorem isStartOf_fill (rules : RuleSet) (known : c.CellsKnown) (span : Span) :
    c.forest.IsStartOf (fill rules c span).forest := (spanNodes_adds rules known span).isStartOf

theorem ids_fill_self (rules : RuleSet) (h : span.first ≤ span.last)
    (inside : span.last < c.cells.side) :
    (fill rules c span).ids span.first span.last = (spanNodes rules c span).1 := by
  rw [ids, idsIn, fill_eq, Triangle.get?_set_self _ h inside, Option.getD_some]

theorem ids_fill_ne {first last : Nat} (h : ¬ (span.first = first ∧ span.last = last)) :
    (fill rules c span).ids first last = c.ids first last := by
  rw [ids, ids, idsIn, idsIn, get?_fill_ne h]

/-- **Filling a cell appends its nodes and puts their ids into the cell.** -/
theorem fill_adds (rules : RuleSet) (known : c.CellsKnown) (h : span.first ≤ span.last)
    (inside : span.last < c.cells.side) :
    c.forest.Adds (nodesOver rules c span)
      ((fill rules c span).ids span.first span.last, (fill rules c span).forest) := by
  rw [ids_fill_self rules h inside]
  exact spanNodes_adds rules known span

theorem CellsKnown.fill (known : c.CellsKnown) (h : span.first ≤ span.last)
    (inside : span.last < c.cells.side) : (fill rules c span).CellsKnown := by
  have added := spanNodes_adds rules known span
  intro first last id member
  change id.index < (spanNodes rules c span).2.size
  rw [added.size_eq]
  by_cases same : span.first = first ∧ span.last = last
  · obtain ⟨rfl, rfl⟩ := same
    rw [ids_fill_self rules h inside, added.ids, Forest.nextIds, List.mem_map] at member
    obtain ⟨place, isNew, rfl⟩ := member
    exact (List.mem_range'_1.1 isNew).2
  · rw [ids_fill_ne same] at member
    have old := known first last id member
    omega

/-! ## The trees of the new nodes -/

/-- Two nested lists expand alike when their outer lists do and each pair of entries does. -/
theorem map_flatMap_eq_map_some {α β γ δ : Type} {l : List α} {m : List β} {φ : α → Option β}
    {ε : γ → Option δ} {F : α → List γ} {G : β → List δ} (h : l.map φ = m.map some)
    (each : ∀ a b, φ a = some b → (F a).map ε = (G b).map some) :
    (l.flatMap F).map ε = (m.flatMap G).map some := by
  induction l generalizing m with
  | nil =>
      obtain rfl : m = [] := by simpa using h.symm
      rfl
  | cons a l ih =>
      cases m with
      | nil => simp at h
      | cons b m =>
          simp only [List.map_cons, List.cons.injEq] at h
          rw [List.flatMap_cons, List.flatMap_cons, List.map_append, List.map_append,
            each a b h.1, ih h.2]

theorem map_expand?_leaves (f : Forest) {position : Nat} {word : Word}
    (h : tokens[position]? = some word) (labels : List Nonterminal) :
    (labels.map fun label => Node.leaf label position).map (f.expand? tokens) =
      (labels.map fun label => Tree.leaf label word).map some := by
  rw [List.map_map, List.map_map]
  apply List.map_congr_left
  intro label _
  simp [Forest.expand?, h]

/-- The branches over two nodes expand to the joins of their trees. -/
theorem map_expand?_branchesOver {f g : Forest} (base : f.IsStartOf g) {left right : NodeId}
    {l r : Tree} (hLeft : f.tree? tokens left = some l) (hRight : f.tree? tokens right = some r) :
    (branchesOver rules f left right).map (g.expand? tokens) = (joinTrees rules l r).map some := by
  obtain ⟨leftNode, foundLeft, leftLabel⟩ := Forest.exists_get?_of_tree? hLeft
  obtain ⟨rightNode, foundRight, rightLabel⟩ := Forest.exists_get?_of_tree? hRight
  have keptLeft := (base.tree?_eq (Forest.lt_size_of_get? foundLeft)).trans hLeft
  have keptRight := (base.tree?_eq (Forest.lt_size_of_get? foundRight)).trans hRight
  rw [branchesOver_of_get? foundLeft foundRight, leftLabel, rightLabel, joinTrees,
    List.map_map, List.map_map]
  apply List.map_congr_left
  intro label _
  simp [Forest.expand?, Node.above, keptLeft, keptRight]

theorem map_expand?_branchesAmong {f g : Forest} (base : f.IsStartOf g)
    {lefts rights : List NodeId} {ls rs : List Tree}
    (hLefts : lefts.map (f.tree? tokens) = ls.map some)
    (hRights : rights.map (f.tree? tokens) = rs.map some) :
    (branchesAmong rules f lefts rights).map (g.expand? tokens) =
      (ls.flatMap fun left => rs.flatMap (joinTrees rules left)).map some :=
  map_flatMap_eq_map_some hLefts fun _ _ hLeft =>
    map_flatMap_eq_map_some hRights fun _ _ hRight => map_expand?_branchesOver base hLeft hRight

/-! ## The chart under way -/

/-- The cells of the spans in `done` expand to the derivations of these spans. -/
structure Filled (rules : RuleSet) (tokens : List Word) (done : List Span) (c : Chart) : Prop where
  tokens_eq : c.tokens = tokens
  side_eq : c.cells.side = tokens.length
  known : c.CellsKnown
  trees : ∀ span ∈ done, (c.ids span.first span.last).map (c.forest.tree? tokens) =
    (derivations rules tokens span.first span.last).map some

theorem filled_blank (rules : RuleSet) (tokens : List Word) :
    Filled rules tokens [] (blank tokens) where
  tokens_eq := rfl
  side_eq := rfl
  known := by
    intro first last id member
    have empty : (blank tokens).ids first last = [] := by
      rw [ids, idsIn]
      by_cases inside : first ≤ last ∧ last < tokens.length
      · rw [blank, Triangle.get?_replicate [] inside.1 inside.2, Option.getD_some]
      · rw [Triangle.get?_eq_none inside, Option.getD_none]
    simp [empty] at member
  trees := by simp

/-- The nodes over a span expand to its derivations once the cells of its parts do. -/
theorem map_expand?_nodesOver {done : List Span} (h : Filled rules tokens done c)
    (ordered : span.first ≤ span.last) (inside : span.last < tokens.length)
    (parts : ∀ split ∈ splits span, ⟨span.first, split⟩ ∈ done ∧ ⟨split + 1, span.last⟩ ∈ done)
    {g : Forest} (base : c.forest.IsStartOf g) :
    (nodesOver rules c span).map (g.expand? tokens) =
      (derivations rules tokens span.first span.last).map some := by
  obtain ⟨first, last⟩ := span
  rcases Nat.eq_or_lt_of_le ordered with same | longer
  · obtain rfl : first = last := same
    have found : tokens[first]? = some tokens[first] := List.getElem?_eq_getElem inside
    rw [derivations_self, wordTrees, found, nodesOver, if_pos rfl, h.tokens_eq, found]
    exact map_expand?_leaves g found _
  · rw [derivations_of_lt longer, nodesOver, if_neg (Nat.ne_of_lt longer)]
    rw [List.map_flatMap, List.map_flatMap]
    apply List.flatMap_congr
    intro split member
    obtain ⟨leftDone, rightDone⟩ := parts split member
    exact map_expand?_branchesAmong base (h.trees _ leftDone) (h.trees _ rightDone)

/-- **One step.**  Filling a cell whose parts are done keeps the done cells and adds it to
them. -/
theorem Filled.fill {done : List Span} (h : Filled rules tokens done c)
    (ordered : span.first ≤ span.last) (inside : span.last < tokens.length)
    (parts : ∀ split ∈ splits span,
      ⟨span.first, split⟩ ∈ done ∧ ⟨split + 1, span.last⟩ ∈ done) :
    Filled rules tokens (done ++ [span]) (fill rules c span) := by
  have within : span.last < c.cells.side := by rwa [h.side_eq]
  have base := isStartOf_fill rules h.known span
  refine ⟨h.tokens_eq, by rw [side_fill, h.side_eq], h.known.fill ordered within, ?_⟩
  intro other member
  by_cases same : span.first = other.first ∧ span.last = other.last
  · rw [← same.1, ← same.2, (fill_adds rules h.known ordered within).map_tree?]
    exact map_expand?_nodesOver h ordered inside parts base
  · have old : other ∈ done := by
      rcases List.mem_append.1 member with old | new
      · exact old
      · exact absurd (by simp_all) same
    rw [ids_fill_ne same, ← h.trees other old]
    exact List.map_congr_left fun id inCell =>
      base.tree?_eq (h.known other.first other.last id inCell)

/-! ## The order of filling -/

theorem pairwise_spans (side : Nat) : (spans side).Pairwise Span.Before := by
  have extent {length : Nat} {span : Span} (member : span ∈ spansOfLength side length) :
      span.last - span.first = length := by
    obtain ⟨first, _, rfl⟩ := List.mem_map.1 member
    exact Nat.add_sub_cancel_left ..
  rw [spans, List.pairwise_flatMap]
  constructor
  · intro length _
    refine List.pairwise_map.2 (List.pairwise_lt_range.imp fun {first later} less => .inr ⟨?_, less⟩)
    simp only [Nat.add_sub_cancel_left]
  · refine List.pairwise_lt_range.imp fun {shorter longer} less one inOne two inTwo => .inl ?_
    rwa [extent inOne, extent inTwo]

theorem nodup_spans (side : Nat) : (spans side).Nodup := by
  refine (pairwise_spans side).imp fun {one two} before same => ?_
  subst same
  simp only [Span.Before] at before
  omega

section Order

variable {side : Nat} {done rest : List Span} {part : Span}

/-- A span that comes before the one at hand has been filled before it. -/
theorem mem_of_before (h : spans side = done ++ span :: rest) (ordered : part.first ≤ part.last)
    (inside : part.last < side) (before : part.Before span) : part ∈ done := by
  have sorted := pairwise_spans side
  have member : part ∈ spans side := mem_spans.2 ⟨ordered, inside⟩
  rw [h] at sorted member
  have later := (List.pairwise_cons.1 (List.pairwise_append.1 sorted).2.1).1
  simp only [Span.Before] at before later
  rcases List.mem_append.1 member with isDone | here
  · exact isDone
  · rcases List.mem_cons.1 here with rfl | after
    · omega
    · have := later part after
      omega

/-- When the turn of a span comes, the cells of its parts are filled. -/
theorem parts_mem_of_order (h : spans side = done ++ span :: rest) :
    ∀ split ∈ splits span, ⟨span.first, split⟩ ∈ done ∧ ⟨split + 1, span.last⟩ ∈ done := by
  have member : span ∈ spans side := by simp [h]
  obtain ⟨ordered, inside⟩ := mem_spans.1 member
  intro split isSplit
  obtain ⟨low, high⟩ := mem_splits.1 isSplit
  constructor
  · exact mem_of_before h low (by simp only; omega) (.inl (by simp only; omega))
  · exact mem_of_before h (by simp only; omega) inside (.inl (by simp only; omega))

end Order

/-- **A whole run.**  What holds of the blank chart, and is kept with one more span done when the
next cell is filled, holds of the finished chart. -/
theorem ofTokens_induction {P : List Span → Chart → Prop} (start : P [] (blank tokens))
    (step : ∀ done span rest c, spans tokens.length = done ++ span :: rest → P done c →
      P (done ++ [span]) (fill rules c span)) :
    P (spans tokens.length) (ofTokens rules tokens) := by
  have run (pending done : List Span) (c : Chart) (order : spans tokens.length = done ++ pending)
      (h : P done c) : P (spans tokens.length) (pending.foldl (fill rules) c) := by
    induction pending generalizing done c with
    | nil =>
        rw [List.append_nil] at order
        rwa [order]
    | cons span rest ih =>
        exact ih (done ++ [span]) _ (by rw [order, List.append_assoc]; rfl)
          (step done span rest c order h)
  exact run _ [] _ rfl start

theorem filled_ofTokens (rules : RuleSet) (tokens : List Word) :
    Filled rules tokens (spans tokens.length) (ofTokens rules tokens) := by
  refine ofTokens_induction (filled_blank rules tokens) fun done span rest c order h => ?_
  obtain ⟨ordered, inside⟩ := mem_spans.1 (show span ∈ spans tokens.length by simp [order])
  exact h.fill ordered inside (parts_mem_of_order order)

/-! ## The finished chart -/

theorem cell?_ofTokens {first last : Nat} (ordered : first ≤ last) (inside : last < tokens.length) :
    (ofTokens rules tokens).cell? first last = some ((ofTokens rules tokens).ids first last) := by
  rw [← side_ofTokens rules tokens] at inside
  obtain ⟨cell, found⟩ := Triangle.exists_get? (ofTokens rules tokens).cells ordered inside
  rw [cell?, ids, idsIn, found, Option.getD_some]

/-- The cells of a finished chart expand to the derivations of their spans. -/
theorem map_tree?_ids {first last : Nat} (ordered : first ≤ last) (inside : last < tokens.length) :
    ((ofTokens rules tokens).ids first last).map (ofTokens rules tokens).tree? =
      (derivations rules tokens first last).map some := by
  have filled := (filled_ofTokens rules tokens).trees ⟨first, last⟩ (mem_spans.2 ⟨ordered, inside⟩)
  rw [← filled]
  apply List.map_congr_left
  intro id _
  rw [tree?, tokens_ofTokens]

end Chart

end PhraseChart
