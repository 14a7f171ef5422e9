/-
# PhraseChart.Proofs.GrammarFile.Bytes -- a grammar file as bytes

A file is cut into lines of bytes, and each line is decoded by itself.  This makes no difference
for the bytes of a text: the file is the text (first half of `loadFile_eq`).

Other bytes have at least one line that encodes no text, and such a file is refused.  A line that
encodes no text is a fault of the file, also inside a comment, but it takes no other line with it:
the lines that do encode a text have the faults that they have in a text, under the same numbers
(`BytesFaultAt`).  Whether there are rule lines, and what they define, is not asked any more.
-/
import PhraseChart.Proofs.GrammarFile.Refusal
import PhraseChart.Proofs.Text.Encoding

namespace PhraseChart

set_option autoImplicit false

namespace Text

/-- The bytes of a text. -/
def utf8 (text : String) : List UInt8 := text.toUTF8.data.toList

variable {bytes : List UInt8} {text : String}

theorem decode?_eq_some_iff_utf8 : decode? bytes = some text.toList ↔ utf8 text = bytes := by
  rw [decode?_eq_some_iff, encode_toList, utf8, eq_comm]

theorem utf8_injective {one two : String} (same : utf8 one = utf8 two) : one = two := by
  have read := decode?_eq_some_iff_utf8.2 same
  rw [decode?_eq_some_iff_utf8.2 rfl, Option.some.injEq] at read
  exact (String.toList_inj.1 read).symm

theorem decode?_eq_none_iff : decode? bytes = none ↔ ∀ text, utf8 text ≠ bytes := by
  simp only [Ne, ← decode?_eq_some_iff_utf8]
  constructor
  · intro unread text read
    rw [unread] at read
    cases read
  · intro unread
    cases read : decode? bytes with
    | none => rfl
    | some s => exact absurd (read.trans (by rw [String.toList_ofList])) (unread (String.ofList s))

end Text

namespace GrammarFile

variable {path : String} {number : Nat} {bytes : List UInt8} {f : LocatedFault}
  {faults : List LocatedFault}

/-- What is wrong with a line of bytes, and where. -/
inductive BytesFaultAt (path : String) (number : Nat) (bytes : List UInt8) : LocatedFault → Prop
  | notText : (∀ text, Text.utf8 text ≠ bytes) →
      BytesFaultAt path number bytes ⟨.file path, .unreadable .notText⟩
  | line {text : String} {fault : Fault} : Text.utf8 text = bytes → LineFault text.toList fault →
      BytesFaultAt path number bytes ⟨⟨path, number⟩, fault⟩

/-- A line of bytes that encodes no text, or one that speaks and is no rule line. -/
def IsFaultyBytes (bytes : List UInt8) : Prop :=
  (∀ text, Text.utf8 text ≠ bytes) ∨
    ∃ text, Text.utf8 text = bytes ∧ Speaks text.toList ∧ ¬ ∃ d, RuleText text.toList d

/-- A line of bytes is read as the text that it encodes, or not at all. -/
theorem decodeLine_cases (bytes : List UInt8) :
    (∃ text, Text.utf8 text = bytes ∧ decodeLine bytes = .ok text.toList) ∨
      (∀ text, Text.utf8 text ≠ bytes) ∧ decodeLine bytes = .error .notText := by
  by_cases encoded : ∃ text, Text.utf8 text = bytes
  · obtain ⟨text, same⟩ := encoded
    exact .inl ⟨text, same, by rw [decodeLine, Text.decode?_eq_some_iff_utf8.2 same]⟩
  · have notText := not_exists.1 encoded
    exact .inr ⟨notText, by rw [decodeLine, Text.decode?_eq_none_iff.2 notText]⟩

theorem isFaulty_decodeLine_iff : IsFaulty (decodeLine bytes) ↔ IsFaultyBytes bytes := by
  obtain ⟨text, rfl, read⟩ | ⟨notText, read⟩ := decodeLine_cases bytes <;> rw [read]
  · constructor
    · exact fun faulty => .inr ⟨text, rfl, faulty⟩
    · rintro (notText | ⟨other, same, faulty⟩)
      · exact absurd rfl (notText text)
      · obtain rfl := Text.utf8_injective same
        exact faulty
  · exact ⟨fun _ => .inl notText, fun _ => trivial⟩

instance : DecidablePred IsFaultyBytes := fun _ => decidable_of_iff _ isFaulty_decodeLine_iff

theorem faultAt_decodeLine_iff :
    FaultAt path number (decodeLine bytes) f ↔ BytesFaultAt path number bytes f := by
  obtain ⟨text, rfl, read⟩ | ⟨notText, read⟩ := decodeLine_cases bytes <;> rw [read]
  · constructor
    · rintro ⟨⟩
      exact .line rfl ‹_›
    · intro h
      cases h with
      | notText notText => exact absurd rfl (notText text)
      | line same isFault => exact .line (Text.utf8_injective same ▸ isFault)
  · constructor
    · rintro ⟨⟩
      exact .notText notText
    · intro h
      cases h with
      | notText => exact .unreadable
      | line same => exact absurd same (notText _)

theorem BytesFaultAt.unique {one two : LocatedFault} (h : BytesFaultAt path number bytes one)
    (other : BytesFaultAt path number bytes two) : one = two :=
  (faultAt_decodeLine_iff.2 h).unique (faultAt_decodeLine_iff.2 other)

/-- The faults of lines of bytes are those of the faulty ones. -/
theorem bytesFaults_eq_iff :
    (readLines path 1 (physicalByteLines bytes)).filterMap faultOf? = faults ↔
      List.Forall₂ (fun numbered f => BytesFaultAt path numbered.2 numbered.1 f)
        (((Text.byteLines bytes).zipIdx 1).filter fun numbered => IsFaultyBytes numbered.1)
        faults := by
  rw [physicalByteLines, filterMap_faultOf?_eq_iff]
  simp only [faultAt_decodeLine_iff, isFaulty_decodeLine_iff]

/-- Bytes that encode no text have a line that encodes none. -/
theorem exists_byteLine_notText (notText : ∀ text, Text.utf8 text ≠ bytes) :
    ∃ line ∈ Text.byteLines bytes, ∀ text, Text.utf8 text ≠ line := by
  by_contra none
  have each : ∀ line ∈ Text.byteLines bytes, ∃ s, line = Text.encode s := by
    intro line isLine
    by_contra other
    refine none ⟨line, isLine, fun text same => other ⟨text.toList, ?_⟩⟩
    rw [Text.encode_toList, ← same, Text.utf8]
  obtain ⟨s, rfl⟩ := Text.exists_encode_of_byteLines each
  exact notText (.ofList s) (by rw [Text.utf8, ← Text.encode_toList, String.toList_ofList])

theorem loadFile_utf8 (path text : String) :
    loadFile path (.ok (Text.utf8 text)) = load path text := by
  rw [loadFile, fileEntries, Text.utf8, ← Text.encode_toList, physicalByteLines_encode_lines]
  rfl

/-- **A file is read as the text that its bytes encode.  Other bytes are refused line by line.**
Each line that encodes no text is a fault of the file, and each other line that speaks and is no
rule line has the fault that it has in a text.  There are no other faults. -/
theorem loadFile_eq (path : String) (bytes : List UInt8) :
    (∀ text, Text.utf8 text = bytes → loadFile path (.ok bytes) = load path text) ∧
      ((∀ text, Text.utf8 text ≠ bytes) →
        ∃ faults, loadFile path (.ok bytes) = .error faults ∧
          List.Forall₂ (fun numbered f => BytesFaultAt path numbered.2 numbered.1 f)
            (((Text.byteLines bytes).zipIdx 1).filter fun numbered => IsFaultyBytes numbered.1)
            faults ∧
          ⟨.file path, .unreadable .notText⟩ ∈ faults ∧
          ∀ f ∈ faults, f.fault ≠ .noRules ∧ ∀ name, f.fault ≠ .undefinedNonterminal name) := by
  refine ⟨?_, fun notText => ?_⟩
  · rintro text rfl
    exact loadFile_utf8 path text
  · have each := bytesFaults_eq_iff.1 (Eq.refl
      ((readLines path 1 (physicalByteLines bytes)).filterMap faultOf?))
    generalize reported : (readLines path 1 (physicalByteLines bytes)).filterMap faultOf? = faults
      at each
    have undecoded : ⟨.file path, .unreadable .notText⟩ ∈ faults := by
      obtain ⟨line, isLine, notText⟩ := exists_byteLine_notText notText
      rw [← List.zipIdx_map_fst 1 (Text.byteLines bytes)] at isLine
      obtain ⟨numbered, isNumbered, rfl⟩ := List.mem_map.1 isLine
      obtain ⟨f, isFault, hasFault⟩ := exists_mem_of_forall₂ each
        (List.mem_filter.2 ⟨isNumbered, decide_eq_true (.inl notText)⟩)
      cases hasFault with
      | notText => exact isFault
      | line same => exact absurd same (notText _)
    have refused : entries path (physicalByteLines bytes) = .error faults :=
      entries_eq_error_iff.2 (.inl ⟨reported ▸ List.ne_nil_of_mem undecoded, reported⟩)
    refine ⟨faults, by rw [loadFile, fileEntries, refused]; rfl, each, undecoded, ?_⟩
    intro f isFault
    obtain ⟨numbered, -, hasFault⟩ := exists_mem_of_forall₂ each.flip isFault
    cases hasFault with
    | notText => exact ⟨nofun, nofun⟩
    | line _ isLineFault => exact (reported_of_lineFault isLineFault).2

/-! The first line of these bytes is a comment with an accent in Latin-1, the second one a quote. -/

def latinBytes : List UInt8 := [0x3B, 0x63, 0x61, 0x66, 0xE9, 0x0A, 0x22, 0x0D, 0x0A]

theorem faultyLines_latinBytes :
    (((Text.byteLines latinBytes).zipIdx 1).filter fun numbered => IsFaultyBytes numbered.1) =
      [([0x3B, 0x63, 0x61, 0x66, 0xE9], 1), ([0x22], 2)] := by
  have lines : Text.byteLines latinBytes = [[0x3B, 0x63, 0x61, 0x66, 0xE9], [0x22]] := by decide
  have comment : IsFaultyBytes [0x3B, 0x63, 0x61, 0x66, 0xE9] :=
    .inl (Text.decode?_eq_none_iff.1 (by decide))
  have quote : IsFaultyBytes [0x22] :=
    .inr ⟨"\"", by decide, by decide,
      (exists_lineFault_iff (by decide)).1 ⟨_, lineFault_unmatchedQuote⟩⟩
  rw [lines]
  exact List.filter_eq_self.2 (by simp [comment, quote])

theorem loadFile_latinBytes :
    loadFile "file" (.ok (Text.utf8 faultyText)) = load "file" faultyText ∧
      ∃ faults, loadFile "file" (.ok latinBytes) = .error faults ∧
        faults = [⟨.file "file", .unreadable .notText⟩, ⟨⟨"file", 2⟩, .unmatchedQuote⟩] := by
  have notText : ∀ text, Text.utf8 text ≠ latinBytes := Text.decode?_eq_none_iff.1 (by decide)
  obtain ⟨faults, refused, each, -⟩ := (loadFile_eq "file" latinBytes).2 notText
  rw [faultyLines_latinBytes] at each
  have comment : BytesFaultAt "file" 1 [0x3B, 0x63, 0x61, 0x66, 0xE9]
      ⟨.file "file", .unreadable .notText⟩ :=
    .notText (Text.decode?_eq_none_iff.1 (by decide))
  have quote : BytesFaultAt "file" 2 [0x22] ⟨⟨"file", 2⟩, .unmatchedQuote⟩ :=
    @BytesFaultAt.line "file" 2 [0x22] "\"" _ (by decide) lineFault_unmatchedQuote
  refine ⟨(loadFile_eq "file" _).1 faultyText rfl, faults, refused, ?_⟩
  exact List.right_unique_forall₂' (fun _ _ _ one other => one.unique other) each
    (.cons comment (.cons quote .nil))

end GrammarFile

end PhraseChart
