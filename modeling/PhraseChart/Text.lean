/-
# PhraseChart.Text -- the words and the lines of a text

Words are cut at blanks, the characters with the Unicode property White_Space.
They separate the words of a sentence and the tokens of a grammar line, and no
character outside them does: the zero-width space and the byte order mark are
ordinary characters.

A line ends at a line feed and nowhere else.  One carriage return right before
that line feed belongs to the line end; any other carriage return is part of the
line, also at the end of a last line that no line feed closes.  Text after the
last line feed is a line only if it is not empty.

The rule for lines reads only two symbols, so it is stated once for any alphabet:
`lines` cuts characters, `byteLines` cuts bytes, and each line of bytes is decoded by
itself (`decode?`).
-/

namespace PhraseChart.Text

set_option autoImplicit false

/-! ### Words -/

/-- The ranges of White_Space, first and last code point. -/
def blankRanges : List (Nat × Nat) :=
  [(0x0009, 0x000D), (0x0020, 0x0020), (0x0085, 0x0085), (0x00A0, 0x00A0), (0x1680, 0x1680),
    (0x2000, 0x200A), (0x2028, 0x2029), (0x202F, 0x202F), (0x205F, 0x205F), (0x3000, 0x3000)]

def isBlank (c : Char) : Bool :=
  blankRanges.any fun (first, last) => first ≤ c.toNat && c.toNat ≤ last

/-- The maximal runs of characters that are not blank, from left to right. -/
def words (s : List Char) : List String :=
  ((s.splitOnP isBlank).filter fun run => !run.isEmpty).map String.ofList

example : (blankRanges.map fun (first, last) => last + 1 - first).sum = 25 := by decide

/-! ### Lines -/

section Alphabet

variable {α : Type} [BEq α]

/-- The line without one final `mark`, if it has one. -/
def withoutFinal (mark : α) (line : List α) : List α :=
  if line.getLast? == some mark then line.dropLast else line

/-- The lines among the pieces between line feeds: each piece but the last was
closed by a line feed. -/
def closePieces (carriageReturn : α) : List (List α) → List (List α)
  | [] => []
  | [last] => if last.isEmpty then [] else [last]
  | piece :: next :: rest =>
      withoutFinal carriageReturn piece :: closePieces carriageReturn (next :: rest)

def splitLines (lineFeed carriageReturn : α) (s : List α) : List (List α) :=
  closePieces carriageReturn (s.splitOn lineFeed)

end Alphabet

def lines (s : List Char) : List (List Char) := splitLines '\n' '\r' s

def byteLines (bytes : List UInt8) : List (List UInt8) := splitLines 0x0A 0x0D bytes

/-- The characters that the bytes encode in UTF-8, if they encode any. -/
def decode? (bytes : List UInt8) : Option (List Char) :=
  (ByteArray.mk bytes.toArray).utf8Decode?.map Array.toList

example : lines "a\r\n\nb\r".toList = [['a'], [], ['b', '\r']] := by decide

example : lines "a\n".toList = [['a']] := by decide

end PhraseChart.Text
