import CallContract.Text.Shown

/-!
# Quoted text

A text between quotation marks in which every character that does not stand for itself is escaped:
by a letter where there is one for it, otherwise by its number in hexadecimal digits.
-/

namespace CallContract.Text

/-- A character as it stands in quoted text. -/
def quotedChar (c : Char) : String :=
  if c = '\x00' then "\\0"
  else if c = '\t' then "\\t"
  else if c = '\n' then "\\n"
  else if c = '\r' then "\\r"
  else if c = '"' then "\\\""
  else if c = '\\' then "\\\\"
  else if isShown c then c.toString
  else "\\u\x7b" ++ String.ofList (Nat.toDigits 16 c.toNat) ++ "\x7d"

/-- A text in quotation marks. -/
def quoted (s : String) : String := "\"" ++ String.join (s.toList.map quotedChar) ++ "\""

end CallContract.Text
