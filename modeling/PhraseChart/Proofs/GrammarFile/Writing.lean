/-
# PhraseChart.Proofs.GrammarFile.Writing -- a definition is read back from its line

`Definition.render` writes a definition the way the printer writes all rules of a
nonterminal.  `ofText_render` reads the same definition back, provided that its symbols
can be written (`Definition.IsWritable`); for a quoted word with a quote in it, or a
name with a bar, that would be false.

The text is assembled from the right.  An alternative spells its tokens in front of
anything that no name can run into (`Rhs.spells_render`), the bars between the
alternatives start no name, and cutting the body at the bars undoes the joining because
no alternative has a bar among its tokens.

The line that is written is itself one line of a file: the only blanks in it are spaces
(`Definition.onlySpaces_render`), so it holds no line feed and ends with no carriage
return, and it is no comment (`Definition.isSilent_render`).
-/
import PhraseChart.Proofs.GrammarFile.Layout
import PhraseChart.Proofs.Text.Words

namespace PhraseChart

set_option autoImplicit false

open Text (OnlySpaces)

/-- All alternatives of a definition on one line. -/
def Definition.render (d : Definition) : String :=
  d.lhs.name ++ " = " ++ " | ".intercalate (d.alternatives.map Rhs.render)

theorem Token.Spells.space {s : List Char} {tokens : List Token} (h : Spells s tokens) :
    Spells (' ' :: s) tokens := .blank (by decide) h

theorem Token.IsWritten.onlySpaces {text : String} (h : (Token.name text).IsWritten) :
    OnlySpaces text.toList := by
  apply OnlySpaces.of_visible
  intro c member
  have ordinary := h.2 c member
  simp only [isNameChar, Bool.not_eq_true', Bool.or_eq_false_iff] at ordinary
  exact ordinary.1.1.1

/-! ## One alternative -/

namespace Rhs

variable {rhs : Rhs}

theorem onlySpaces_render (h : rhs.IsWritable) : OnlySpaces rhs.render.toList := by
  cases rhs with
  | lexical word =>
      obtain ⟨-, -, visible⟩ := h
      have quote : OnlySpaces "\"".toList := by decide
      simp only [render, String.toList_append]
      exact (quote.append (OnlySpaces.of_visible visible)).append quote
  | binary left right =>
      have leftWritten : (Token.name left.name).IsWritten := h.1 _ (by simp [tokens])
      have rightWritten : (Token.name right.name).IsWritten := h.1 _ (by simp [tokens])
      simp only [render, String.toList_append]
      exact (leftWritten.onlySpaces.append (by decide)).append rightWritten.onlySpaces

/-- A rendered alternative spells its tokens in front of what starts no name. -/
theorem spells_render (h : rhs.IsWritable) {s : List Char} {tokens : List Token}
    (free : Token.StartsNoName s) (spelled : Token.Spells s tokens) :
    Token.Spells (rhs.render.toList ++ s) (rhs.tokens ++ tokens) := by
  cases rhs with
  | lexical word =>
      have closed := Token.Spells.quoted (h.1 (.quoted word) (by simp [Rhs.tokens])) spelled
      simpa [render, Rhs.tokens] using closed
  | binary left right =>
      obtain ⟨leftNonempty, leftOrdinary⟩ := h.1 (.name left.name) (by simp [Rhs.tokens])
      obtain ⟨rightNonempty, rightOrdinary⟩ := h.1 (.name right.name) (by simp [Rhs.tokens])
      have second := Token.Spells.name rightNonempty rightOrdinary free spelled
      have both := Token.Spells.name leftNonempty leftOrdinary
        (Token.startsNoName_cons (by decide)) second.space
      simpa [render, Rhs.tokens] using both

/-- The alternatives of a line, with bars between them. -/
theorem spells_renderAll {alternatives : List Rhs} (h : ∀ rhs ∈ alternatives, rhs.IsWritable) :
    Token.Spells (" | ".toList.intercalate (alternatives.map fun rhs => rhs.render.toList))
      ([Token.bar].intercalate (alternatives.map tokens)) := by
  induction alternatives with
  | nil => exact .nil
  | cons rhs rest ih =>
      obtain ⟨here, others⟩ := List.forall_mem_cons.1 h
      have later := ih others
      cases rest with
      | nil => simpa using spells_render here Token.startsNoName_nil .nil
      | cons next others =>
          have barred := (Token.Spells.bar later.space).space
          have whole := spells_render here (Token.startsNoName_cons (by decide)) barred
          simpa using whole

end Rhs

/-! ## One definition -/

namespace Definition

variable {d : Definition}

theorem toList_render (d : Definition) :
    d.render.toList = d.lhs.name.toList ++ (" = ".toList ++
      " | ".toList.intercalate (d.alternatives.map fun rhs => rhs.render.toList)) := by
  rw [render, String.toList_append, String.toList_append, String.toList_intercalate, List.map_map,
    List.append_assoc]
  rfl

theorem onlySpaces_render (h : d.IsWritable) : OnlySpaces d.render.toList := by
  have sign : OnlySpaces " = ".toList := by decide
  have bar : OnlySpaces " | ".toList := by decide
  rw [toList_render]
  refine h.isName.onlySpaces.append (sign.append (bar.intercalate ?_))
  intro part isPart
  obtain ⟨rhs, member, rfl⟩ := List.mem_map.1 isPart
  exact Rhs.onlySpaces_render (h.each rhs member)

theorem spells_render (h : d.IsWritable) :
    Token.Spells d.render.toList
      (.name d.lhs.name :: .equals :: [Token.bar].intercalate (d.alternatives.map Rhs.tokens)) := by
  obtain ⟨nonempty, ordinary⟩ := h.isName
  have body := Rhs.spells_renderAll h.each
  have signed := (Token.Spells.equals body.space).space
  rw [toList_render]
  exact .name nonempty ordinary (Token.startsNoName_cons (by decide)) signed

/-- **A definition that can be written is read back from its line.** -/
theorem ofText_render (h : d.IsWritable) : ofText d.render.toList = .ok d :=
  ofText_eq_ok_iff.2 ⟨_, spells_render h,
    map_alternative_splitOn_iff.2 ⟨h.nonempty, rfl, fun rhs member => (h.each rhs member).2⟩⟩

theorem isSilent_render (h : d.IsWritable) : GrammarFile.isSilent d.render.toList = false := by
  obtain ⟨rest, front⟩ := (spells_render h).dropWhile_eq
  rw [GrammarFile.isSilent, front]
  cases name : d.lhs.name.toList with
  | nil => exact absurd (String.toList_eq_nil_iff.1 name) h.isName.1
  | cons c others =>
      have opens := h.opens
      rw [name] at opens
      simpa using opens

end Definition

end PhraseChart
