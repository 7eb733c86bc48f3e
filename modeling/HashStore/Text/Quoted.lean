import HashStore.Text.Printable
import HashStore.Text.Extender

/-! # Quoted letters and texts

A letter is quoted between apostrophes and a text between quotation marks.  Inside, the mark in use
and the backslash are escaped, the commonest controls have names, and whatever cannot be shown on its
own is given by its code point.  The mark that is not in use needs no escape. -/

namespace HashStore.Text

/-- The code point of a character, as an escape with hexadecimal digits. -/
def codePointEscape (c : Char) : String :=
  "\\u\x7b" ++ String.ofList (Nat.toDigits 16 c.toNat) ++ "\x7d"

/-- A character as it stands inside a quotation between two `mark`s. -/
def escaped (mark c : Char) : String :=
  if c = '\x00' then "\\0"
  else if c = '\t' then "\\t"
  else if c = '\r' then "\\r"
  else if c = '\n' then "\\n"
  else if c = '\x5c' || c = mark then "\\" ++ String.singleton c
  else if isExtender c || !isPrintable c then codePointEscape c
  else String.singleton c

/-- A letter between apostrophes. -/
def quotedLetter (c : Char) : String := "'" ++ escaped '\x27' c ++ "'"

/-- A text between quotation marks. -/
def quoted (s : String) : String := "\"" ++ String.join (s.toList.map (escaped '\x22')) ++ "\""

end HashStore.Text
