/-
# PhraseChart.Proofs.Program.Notes -- what the trace of a chart counts

The trace of a chart is read off the finished chart.  For each span it notes what the chart found
there, and that does not take a chart to say: an unknown word is one that no rule rewrites to
(`wordNotes`), and the number of a split is that of the pairs of derivations of its two parts, once
for each rule that joins them (`splitTotal`, `splitNotes`).

The count of a split goes over all nodes of a cell and looks at their left children.  Each node
of the cell was made at one split, where its left child ends, so the count is the number of
branches that were made there (`splitCount_ofTokens`).  `parsing_ofTokens` is the whole trace in
these terms.
-/
import PhraseChart.Program.Stepwise
import PhraseChart.Proofs.Chart.Layout
import PhraseChart.Proofs.Chart.Lexicon
import PhraseChart.Proofs.Grammar.Grouping

namespace PhraseChart.Program

set_option autoImplicit false

open Chart (ofTokens spans splits nodesOver)

variable {rules : RuleSet} {tokens : List Word} {c : Chart} {span : Span} {split : Nat}

/-! ## The number of a split -/

/-- The number of derivations of a span that part it at a split. -/
def splitTotal (rules : RuleSet) (tokens : List Word) (span : Span) (split : Nat) : Nat :=
  ((derivations rules tokens span.first split).flatMap fun left =>
    (derivations rules tokens (split + 1) span.last).flatMap (joinTrees rules left)).length

/-- Once the parts of a span are done, joining them makes that many branches. -/
theorem length_branchesAmong {done : List Span} (filled : c.Filled rules tokens done)
    (left : ⟨span.first, split⟩ ∈ done) (right : ⟨split + 1, span.last⟩ ∈ done) :
    (branchesAmong rules c.forest (c.ids span.first split) (c.ids (split + 1) span.last)).length =
      splitTotal rules tokens span split := by
  have expanded := @Chart.map_expand?_branchesAmong rules tokens c.forest c.forest (.refl _) _ _ _ _
    (filled.trees _ left) (filled.trees _ right)
  simpa [splitTotal] using congrArg List.length expanded

/-- Where the left child of a node ends. -/
def leftEnd (c : Chart) (node : Node) : Nat :=
  ((node.children?.bind fun (left, _) => c.node? left).map fun left => left.span.last).getD 0

/-- Whether a node was made at a split, as the count decides it. -/
def isMadeAt (c : Chart) (split : Nat) (node? : Option Node) : Bool :=
  match node?.bind Node.children? with
  | none => false
  | some (left, _) => (c.node? left).any fun node => node.span.last == split

theorem isMadeAt_of_mem_branchesAmong {lefts rights : List NodeId} {node : Node}
    (member : node ∈ branchesAmong rules c.forest lefts rights) :
    isMadeAt c split (some node) = decide (leftEnd c node = split) := by
  obtain ⟨left, -, later⟩ := List.mem_flatMap.1 member
  obtain ⟨right, -, isBranch⟩ := List.mem_flatMap.1 later
  obtain ⟨l, r, found, -, label, -, rfl⟩ := mem_branchesOver.1 isBranch
  simp [isMadeAt, leftEnd, Node.above, Node.children?, Chart.node?, found, beq_eq_decide]

/-- A branch was made at the split where its left child ends. -/
theorem leftEnd_of_mem_branchesAmong {node : Node}
    (member : node ∈ branchesAmong rules (ofTokens rules tokens).forest
      ((ofTokens rules tokens).ids span.first split)
      ((ofTokens rules tokens).ids (split + 1) span.last)) :
    leftEnd (ofTokens rules tokens) node = split := by
  obtain ⟨left, inLeft, later⟩ := List.mem_flatMap.1 member
  obtain ⟨right, -, isBranch⟩ := List.mem_flatMap.1 later
  obtain ⟨l, r, found, -, label, -, rfl⟩ := mem_branchesOver.1 isBranch
  have isSpan := Chart.span_of_mem_ids inLeft found
  simp [leftEnd, Node.above, Node.children?, Chart.node?, found, isSpan]

/-- **The count of a split is its number.** -/
theorem splitCount_ofTokens (isSpan : span ∈ spans tokens.length) (isSplit : split ∈ splits span) :
    Trace.splitCount (ofTokens rules tokens) span split = splitTotal rules tokens span split := by
  obtain ⟨ordered, inside⟩ := Chart.mem_spans.1 isSpan
  obtain ⟨low, high⟩ := mem_splits.1 isSplit
  have longer : ¬ span.first = span.last := by omega
  have laidOut := (Chart.laidOut_ofTokens rules tokens).nodes span isSpan
  rw [nodesOver, if_neg longer] at laidOut
  have own : ∀ other ∈ splits span, ∀ node ∈ branchesAmong rules (ofTokens rules tokens).forest
      ((ofTokens rules tokens).ids span.first other)
      ((ofTokens rules tokens).ids (other + 1) span.last),
      leftEnd (ofTokens rules tokens) node = other :=
    fun other _ node member => leftEnd_of_mem_branchesAmong member
  have total := @length_branchesAmong rules tokens _ span split _
    (Chart.filled_ofTokens rules tokens) (Chart.mem_spans.2 ⟨low, by simp only; omega⟩)
    (Chart.mem_spans.2 ⟨by simp only; omega, inside⟩)
  generalize ofTokens rules tokens = c at laidOut own total
  calc Trace.splitCount c span split
      = ((c.ids span.first span.last).map c.node?).countP (isMadeAt c split) := by
        rw [List.countP_map]
        rfl
    _ = (((splits span).flatMap fun split => branchesAmong rules c.forest
          (c.ids span.first split) (c.ids (split + 1) span.last)).filter fun node =>
            leftEnd c node = split).length := by
        rw [laidOut, List.countP_map, List.countP_eq_length_filter]
        refine congrArg List.length (List.filter_congr fun node member => ?_)
        obtain ⟨other, -, among⟩ := List.mem_flatMap.1 member
        exact isMadeAt_of_mem_branchesAmong among
    _ = splitTotal rules tokens span split := by
        have distinct : (splits span).Nodup := List.nodup_range'
        rw [filter_flatMap_of_key distinct own, if_pos isSplit, total]

/-! ## The whole trace -/

/-- What is noted about the word at a position. -/
def wordNotes (rules : RuleSet) (tokens : List Word) (position : Nat) : List String :=
  match tokens[position]? with
  | none => []
  | some word =>
      if (rules.heads (.lexical word)).isEmpty then [Trace.unknownLine word position] else []

/-- What is noted about a split. -/
def splitNotes (rules : RuleSet) (tokens : List Word) (span : Span) (split : Nat) : List String :=
  let total := splitTotal rules tokens span split
  if total = 0 then [] else [Trace.splitLine span split total]

/-- The spans of one word come first, and then the longer ones. -/
theorem spans_eq (side : Nat) :
    spans side = (List.range side).map (fun position => ⟨position, position⟩) ++
      Stepwise.longerSpans side := by
  cases side with
  | zero => rfl
  | succ side =>
      have lengths : List.range (side + 1) = 0 :: List.range' 1 side := by
        rw [List.range_eq_range', List.range'_succ]
      unfold spans
      conv_lhs => rw [lengths, List.flatMap_cons]
      rfl

theorem map_filter_eq_flatMap {α β : Type} (p : α → Bool) (f : α → β) (l : List α) :
    (l.filter p).map f = l.flatMap fun a => if p a then [f a] else [] := by
  induction l with
  | nil => rfl
  | cons a l ih =>
      rw [List.filter_cons, List.flatMap_cons, ← ih]
      split <;> rfl

theorem map_unknownWords_ofTokens (rules : RuleSet) (tokens : List Word) :
    ((ofTokens rules tokens).unknownWords.map fun (position, word) =>
      Trace.unknownLine word position) =
      (List.range tokens.length).flatMap (wordNotes rules tokens) := by
  rw [Chart.unknownWords_ofTokens, List.map_map, map_filter_eq_flatMap, List.range_eq_range',
    ← List.zipIdx_map_snd, List.flatMap_map]
  apply List.flatMap_congr
  rintro ⟨word, position⟩ member
  rw [wordNotes, List.mem_zipIdx_iff_getElem?.1 member]
  rfl

theorem splitLines_ofTokens (isSpan : span ∈ spans tokens.length) :
    Trace.splitLines (ofTokens rules tokens) span =
      (splits span).flatMap (splitNotes rules tokens span) := by
  rw [Trace.splitLines, List.filterMap_eq_flatMap_toList]
  apply List.flatMap_congr
  intro split isSplit
  rw [splitCount_ofTokens isSpan isSplit, splitNotes]
  dsimp only
  split <;> rfl

/-- **The trace of a finished chart, without the chart**, up to its last line. -/
theorem parsing_ofTokens (rules : RuleSet) (tokens : List Word) :
    Trace.parsing (ofTokens rules tokens) =
      (List.range tokens.length).flatMap (wordNotes rules tokens) ++
        (Stepwise.longerSpans tokens.length).flatMap (fun span =>
          (splits span).flatMap (splitNotes rules tokens span)) ++
        [Trace.totalsLine (ofTokens rules tokens)] := by
  have single : (List.range tokens.length).flatMap (fun position =>
      (splits ⟨position, position⟩).flatMap (splitNotes rules tokens ⟨position, position⟩)) = [] :=
    List.flatMap_eq_nil_iff.2 fun position _ => by simp [splits]
  rw [Trace.parsing, map_unknownWords_ofTokens, Chart.size, Chart.tokens_ofTokens,
    List.flatMap_congr fun span isSpan => splitLines_ofTokens isSpan, spans_eq,
    List.flatMap_append, List.flatMap_map, single, List.nil_append]

end PhraseChart.Program
