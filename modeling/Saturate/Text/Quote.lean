import Saturate.Text.Escaped

/-!
Quoted text in the debugging style: the text between double quotes, with the
quote, the backslash and the escaped characters of `Saturate.Text.Escaped`
written out. Tab, carriage return, line feed and NUL have their short escapes;
the other escaped characters are written `\u{hex}` with lower-case digits and
no padding. Every other character stands for itself.
-/

namespace Saturate.Text

/-- Lower-case hexadecimal digits of a natural. -/
def hexText (n : Nat) : String := String.ofList (Nat.toDigits 16 n)

/-- The escaped form of one character inside double quotes. -/
def escapeChar (c : Char) : String :=
  if c = '"' then "\\\""
  else if c = '\\' then "\\\\"
  else if c = '\n' then "\\n"
  else if c = '\r' then "\\r"
  else if c = '\t' then "\\t"
  else if c.toNat = 0 then "\\0"
  else if isEscaped c then "\\u\x7b" ++ hexText c.toNat ++ "\x7d"
  else String.singleton c

/-- Text in double quotes with escapes. -/
def quote (s : String) : String :=
  "\"" ++ String.join (s.toList.map escapeChar) ++ "\""

end Saturate.Text
