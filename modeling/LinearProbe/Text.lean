/-!
# Text for inspection

Composite text comes in two layouts: on one line, or with one field, pair or item a line, indented
by four blanks and closed by a comma. `Layout.record`, `Layout.mapping` and `Layout.sequence` put
braces and brackets around parts that are already written in the same layout.

`quote` writes a text between double quotes so that it can be read on one line. The quote, the
backslash and four control characters have short escapes (`shortEscape?`); every other character
that does not show by itself is written by its code point in hexadecimal; all else stands for
itself. Two classes of characters do not show: controls, format characters, separators other than
the blank, and private use characters (`isUnprintable`), and the blocks of marks that attach to the
character before them (`isCombining`).
-/

namespace LinearProbe

/-! ## Layouts -/

/-- How composite text is spread over lines. -/
inductive Layout where
  | inline
  | multiline
deriving DecidableEq, Repr

namespace Layout

/-- Every line of the text moved four blanks to the right. -/
def indent (text : String) : String :=
  "    " ++ text.replace "\n" "\n    "

/-- The parts between two delimiters. `gap` stands inside the delimiters when the parts are on one
line; without parts the delimiters are adjacent. -/
def enclose (opening closing gap : String) (parts : List String) : Layout → String
  | inline =>
    if parts.isEmpty then opening ++ closing
    else opening ++ gap ++ ", ".intercalate parts ++ gap ++ closing
  | multiline =>
    if parts.isEmpty then opening ++ closing
    else opening ++ "\n" ++ String.join (parts.map fun p => indent p ++ ",\n") ++ closing

/-- A record with its name and named fields. -/
def record (layout : Layout) (name : String) (fields : List (String × String)) : String :=
  layout.enclose (name ++ " \x7b") "\x7d" " " (fields.map fun f => f.1 ++ ": " ++ f.2)

/-- A mapping from keys to values. -/
def mapping (layout : Layout) (pairs : List (String × String)) : String :=
  layout.enclose "\x7b" "\x7d" "" (pairs.map fun p => p.1 ++ ": " ++ p.2)

/-- A sequence of items. -/
def sequence (layout : Layout) (items : List String) : String :=
  layout.enclose "[" "]" "" items

end Layout

/-- The text, filled with blanks on the left up to `width` characters. -/
def alignRight (width : Nat) (text : String) : String :=
  String.ofList (List.replicate (width - text.length) ' ') ++ text

/-! ## Characters that do not show by themselves -/

/-- The code point lies in one of the ranges, ends included. -/
def inRanges (ranges : List (Nat × Nat)) (c : Char) : Bool :=
  ranges.any fun r => r.1 ≤ c.toNat && c.toNat ≤ r.2

/-- Controls, format characters, separators other than the blank, and private use characters. -/
def unprintableRanges : List (Nat × Nat) :=
  [(0x00, 0x1f), (0x7f, 0xa0), (0xad, 0xad), (0x600, 0x605), (0x61c, 0x61c), (0x6dd, 0x6dd),
   (0x70f, 0x70f), (0x890, 0x891), (0x8e2, 0x8e2), (0x1680, 0x1680), (0x180e, 0x180e),
   (0x2000, 0x200f), (0x2028, 0x202f), (0x205f, 0x2064), (0x2066, 0x206f), (0x3000, 0x3000),
   (0xe000, 0xf8ff), (0xfeff, 0xfeff), (0xfff9, 0xfffb), (0x110bd, 0x110bd), (0x110cd, 0x110cd),
   (0x13430, 0x13438), (0x1bca0, 0x1bca3), (0x1d173, 0x1d17a), (0xe0001, 0xe0001),
   (0xe0020, 0xe007f), (0xf0000, 0xffffd), (0x100000, 0x10fffd)]

/-- The blocks of combining marks and variation selectors. -/
def combiningRanges : List (Nat × Nat) :=
  [(0x300, 0x36f), (0x483, 0x489), (0x1ab0, 0x1ace), (0x1dc0, 0x1dff), (0x20d0, 0x20f0),
   (0x3099, 0x309a), (0xfe00, 0xfe0f), (0xfe20, 0xfe2f), (0xe0100, 0xe01ef)]

/-- The character is not printable by itself. -/
def isUnprintable (c : Char) : Bool :=
  inRanges unprintableRanges c

/-- The character combines with the one before it. -/
def isCombining (c : Char) : Bool :=
  inRanges combiningRanges c

/-! ## Quoted text -/

/-- The letter after the backslash in a short escape. -/
def shortEscape? : Char → Option Char
  | '\x00' => some '0'
  | '\t' => some 't'
  | '\r' => some 'r'
  | '\n' => some 'n'
  | '"' => some '"'
  | '\\' => some '\\'
  | _ => none

/-- A character inside quoted text. -/
def escapeChar (c : Char) : List Char :=
  match shortEscape? c with
  | some letter => ['\\', letter]
  | none =>
    if isUnprintable c || isCombining c then
      ['\\', 'u', '\x7b'] ++ Nat.toDigits 16 c.toNat ++ ['\x7d']
    else [c]

/-- The text between double quotes. -/
def quote (text : String) : String :=
  String.ofList ('"' :: text.toList.flatMap escapeChar ++ ['"'])

end LinearProbe
