import TermAlgebra.Text.Printable

/-!
# Quoted text

Names and lines of input are shown between quotes, with every character that could not be read
off the page written as an escape. Main definition: `Text.quoted`.
-/

namespace TermAlgebra.Text

/-- The two characters that can enclose a quoted text. -/
inductive QuoteMark
  | single
  | double
deriving DecidableEq, Repr

namespace QuoteMark

/-- The character written for the mark. -/
def char : QuoteMark → Char
  | single => '\x27'
  | double => '\x22'

/-- Quotes are single, unless the text holds a single quote and no double one. -/
def suited (cs : List Char) : QuoteMark :=
  if cs.contains single.char && !cs.contains double.char then double else single

end QuoteMark

/-- The last `width` hexadecimal digits of a number, in lower case. -/
def hexDigits (width n : Nat) : List Char :=
  let digits := Nat.toDigits 16 n
  List.replicate (width - digits.length) '0' ++ digits

/-- A character that is not printable is written by its code point, in two, four or eight
hexadecimal digits. -/
def codePointEscape (c : Char) : List Char :=
  let n := c.toNat
  if n ≤ 0xff then '\x5c' :: 'x' :: hexDigits 2 n
  else if n ≤ 0xffff then '\x5c' :: 'u' :: hexDigits 4 n
  else '\x5c' :: 'U' :: hexDigits 8 n

/-- How one character is written between the given marks: a backslash stands before the mark in
use and before a backslash, and a character that is not printable becomes an escape. -/
def escaped (mark : QuoteMark) (c : Char) : List Char :=
  if c == mark.char || c == '\x5c' then ['\x5c', c]
  else if c == '\t' then ['\x5c', 't']
  else if c == '\n' then ['\x5c', 'n']
  else if c == '\r' then ['\x5c', 'r']
  else if isPrintable c then [c]
  else codePointEscape c

/-- The text between quotes. -/
def quoted (s : String) : String :=
  let cs := s.toList
  let mark := QuoteMark.suited cs
  String.ofList (mark.char :: cs.flatMap (escaped mark) ++ [mark.char])

end TermAlgebra.Text
