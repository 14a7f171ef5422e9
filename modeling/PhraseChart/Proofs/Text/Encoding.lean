/-
# PhraseChart.Proofs.Text.Encoding -- lines of text that are given as bytes

A byte below 0x80 stands in an encoded text only for the character of that number
(`mem_of_mem_encode`), so the two bytes that bound lines are found where the two characters
are.  An encoded text is therefore cut into its encoded lines before anything is decoded
(`byteLines_encode`), and each line decodes to itself.

Conversely bytes encode a text when each of their lines does (`exists_encode_of_byteLines`): the
bytes that the cut drops are characters of their own.
-/
import Mathlib.Data.List.Basic
import PhraseChart.GrammarFile.Loading
import PhraseChart.Proofs.Text.Lines

namespace PhraseChart

set_option autoImplicit false

namespace Text

/-- The UTF-8 bytes of a text. -/
def encode (s : List Char) : List UInt8 := s.flatMap String.utf8EncodeChar

theorem encode_append (s t : List Char) : encode (s ++ t) = encode s ++ encode t :=
  List.flatMap_append

theorem encode_toByteArray (s : List Char) : ByteArray.mk (encode s).toArray = s.utf8Encode := by
  rw [← List.data_toByteArray]
  rfl

theorem encode_toList (text : String) : encode text.toList = text.toUTF8.data.toList := by
  rw [String.toUTF8_eq_toByteArray, ← String.utf8Encode_toList, ← encode_toByteArray]

theorem decode?_encode (s : List Char) : decode? (encode s) = some s := by
  rw [decode?, encode_toByteArray, List.utf8Decode?_utf8Encode, Option.map_some]

/-- **Bytes decode to the text that they encode, and to nothing if they encode none.** -/
theorem decode?_eq_some_iff {bytes : List UInt8} {s : List Char} :
    decode? bytes = some s ↔ bytes = encode s := by
  constructor
  · intro decoded
    obtain ⟨chars, read, rfl⟩ := Option.map_eq_some_iff.1 decoded
    have valid : (ByteArray.mk bytes.toArray).utf8Decode?.isSome := by rw [read]; rfl
    have whole := @ByteArray.utf8Encode_get_utf8Decode? _ valid
    simp only [read, Option.get_some, ← encode_toByteArray] at whole
    simpa using (congrArg (·.data.toList) whole).symm
  · rintro rfl
    exact decode?_encode s

/-- Only a character of one byte has a byte below 0x80, since 0x80 or more is added to every
byte of the others. -/
theorem toNat_eq_of_mem_utf8EncodeChar {c : Char} {byte : UInt8} (ascii : byte.toNat < 0x80)
    (member : byte ∈ String.utf8EncodeChar c) : c.toNat = byte.toNat := by
  have notHigh {n : Nat} (high : 0x80 ≤ n) (small : n < 256) : byte ≠ UInt8.ofNat n := by
    rintro rfl
    rw [UInt8.toNat_ofNat_of_lt' small] at ascii
    omega
  revert member
  fun_cases String.utf8EncodeChar c with
  | case1 v single =>
      intro member
      obtain rfl := List.mem_singleton.1 member
      rw [UInt8.toNat_ofNat_of_lt' (Nat.lt_of_le_of_lt single (by decide))]
      rfl
  | case2 v =>
      simp only [List.mem_cons, List.not_mem_nil, or_false]
      rintro (same | same) <;> exact absurd same (notHigh (by omega) (by omega))
  | case3 v =>
      simp only [List.mem_cons, List.not_mem_nil, or_false]
      rintro (same | same | same) <;> exact absurd same (notHigh (by omega) (by omega))
  | case4 v =>
      simp only [List.mem_cons, List.not_mem_nil, or_false]
      rintro (same | same | same | same) <;> exact absurd same (notHigh (by omega) (by omega))

section Ascii

variable {s : List Char} {c : Char} (ascii : c.toNat < 0x80)

include ascii

theorem eq_of_mem_utf8EncodeChar {d : Char}
    (member : UInt8.ofNat c.toNat ∈ String.utf8EncodeChar d) : d = c := by
  have number : (UInt8.ofNat c.toNat).toNat = c.toNat :=
    UInt8.toNat_ofNat_of_lt' (Nat.lt_trans ascii (by decide))
  have same := toNat_eq_of_mem_utf8EncodeChar (by rwa [number]) member
  exact Char.toNat_inj.1 (same.trans number)

theorem mem_of_mem_encode (member : UInt8.ofNat c.toNat ∈ encode s) : c ∈ s := by
  obtain ⟨d, inside, isByte⟩ := List.mem_flatMap.1 member
  exact eq_of_mem_utf8EncodeChar ascii isByte ▸ inside

theorem getLast?_of_getLast?_encode (final : (encode s).getLast? = some (UInt8.ofNat c.toNat)) :
    s.getLast? = some c := by
  rcases List.eq_nil_or_concat' s with rfl | ⟨before, d, rfl⟩
  · simp [encode] at final
  · have isLast : (String.utf8EncodeChar d).getLast? = some (UInt8.ofNat c.toNat) := by
      rw [encode_append, List.getLast?_append_of_ne_nil] at final
      · simpa [encode] using final
      · simp [encode, String.utf8EncodeChar_ne_nil]
    rw [List.getLast?_concat, eq_of_mem_utf8EncodeChar ascii (List.mem_of_getLast? isLast)]

end Ascii

theorem withoutFinal_encode (line : List Char) :
    withoutFinal 0x0D (encode line) = encode (withoutFinal '\r' line) := by
  by_cases final : line.getLast? = some '\r'
  · obtain ⟨before, rfl⟩ := List.getLast?_eq_some_iff.1 final
    have bytes : encode (before ++ ['\r']) = encode before ++ [0x0D] := encode_append before ['\r']
    rw [bytes, withoutFinal_concat, withoutFinal_concat]
  · have bare : (encode line).getLast? ≠ some 0x0D := fun isLast =>
      final (getLast?_of_getLast?_encode (by decide) isLast)
    rw [withoutFinal_of_ne final, withoutFinal_of_ne bare]

theorem encode_closed (line rest : List Char) :
    encode (line ++ '\n' :: rest) = encode line ++ 0x0A :: encode rest :=
  encode_append line ('\n' :: rest)

/-- **An encoded text is cut into its encoded lines.** -/
theorem byteLines_encode (s : List Char) : byteLines (encode s) = (lines s).map encode := by
  have free {line : List Char} (free : '\n' ∉ line) : (0x0A : UInt8) ∉ encode line :=
    fun isByte => free (mem_of_mem_encode (by decide) isByte)
  unfold byteLines lines
  induction s using lines_induction '\n' with
  | last line noFeed =>
      rw [splitLines_of_not_mem noFeed, splitLines_of_not_mem (free noFeed)]
      cases line with
      | nil => rfl
      | cons c rest => simp [encode, String.utf8EncodeChar_ne_nil]
  | closed line rest noFeed ih =>
      rw [splitLines_append noFeed, encode_closed, splitLines_append (free noFeed), ih,
        withoutFinal_encode, List.map_cons]

/-- **Bytes whose lines all encode a text encode one.** -/
theorem exists_encode_of_byteLines {bytes : List UInt8}
    (each : ∀ line ∈ byteLines bytes, ∃ s, line = encode s) : ∃ s, bytes = encode s := by
  unfold byteLines at each
  induction bytes using lines_induction (0x0A : UInt8) with
  | last line noFeed =>
      rw [splitLines_of_not_mem noFeed] at each
      cases line with
      | nil => exact ⟨[], rfl⟩
      | cons byte rest => exact each (byte :: rest) (by simp)
  | closed line rest noFeed ih =>
      rw [splitLines_append noFeed, List.forall_mem_cons] at each
      obtain ⟨⟨s, first⟩, later⟩ := each
      obtain ⟨t, rfl⟩ := ih later
      by_cases final : line.getLast? = some 0x0D
      · obtain ⟨before, rfl⟩ := List.getLast?_eq_some_iff.1 final
        rw [withoutFinal_concat] at first
        refine ⟨(s ++ ['\r']) ++ '\n' :: t, ?_⟩
        rw [encode_closed, encode_append, ← first]
        rfl
      · rw [withoutFinal_of_ne final] at first
        exact ⟨s ++ '\n' :: t, by rw [encode_closed, first]⟩

end Text

namespace GrammarFile

/-- **The lines of an encoded text are read as the lines of the text.** -/
theorem physicalByteLines_encode_lines (s : List Char) :
    physicalByteLines (Text.encode s) = (Text.lines s).map .ok := by
  rw [physicalByteLines, Text.byteLines_encode, List.map_map]
  refine List.map_congr_left fun line _ => ?_
  rw [Function.comp_apply, decodeLine, Text.decode?_encode]

/-- Lines that are written as bytes are read again as they were. -/
theorem physicalByteLines_encode {lines : List (List Char)} (free : ∀ line ∈ lines, '\n' ∉ line)
    (bare : ∀ line ∈ lines, line.getLast? ≠ some '\r') :
    physicalByteLines (Text.encode (lines.flatMap (· ++ ['\n']))) = lines.map .ok := by
  rw [physicalByteLines_encode_lines, Text.lines, Text.splitLines_closed free bare]

end GrammarFile

end PhraseChart
