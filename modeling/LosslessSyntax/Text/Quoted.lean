import LosslessSyntax.Text.Hidden

/-!
# Quoted text

A text between double quotes. Quotes and backslashes inside are escaped, the usual controls have short
escapes, and other characters without a visible form are written by their code point.
-/

set_option autoImplicit false

namespace LosslessSyntax.Text

def escape (c : Char) : String :=
  if c = '\x00' then "\\0"
  else if c = '\t' then "\\t"
  else if c = '\r' then "\\r"
  else if c = '\n' then "\\n"
  else if c = '"' then "\\\""
  else if c = '\\' then "\\\\"
  else if isHidden c then "\\u\x7b" ++ String.ofList (Nat.toDigits 16 c.toNat) ++ "\x7d"
  else String.singleton c

def quoted (s : String) : String := "\"" ++ String.join (s.toList.map escape) ++ "\""

end LosslessSyntax.Text
