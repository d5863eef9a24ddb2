import CallContract.Binary64.Layout
import CallContract.Json

/-!
# Compact JSON text

One line without blanks. A string escapes the quotation mark, the backslash and the characters below
U+0020, five of these by a letter and the others by four lower-case hexadecimal digits.
-/

namespace CallContract

def Number.text : Number → String
  | .integer n => toString n
  | .double x => x.text

namespace Json

/-- The lower-case digit for a number below 16. -/
def hexDigit (n : Nat) : Char := Nat.digitChar n

/-- A character as it stands inside a string. -/
def escape (c : Char) : List Char :=
  if c = '"' then ['\\', '"']
  else if c = '\\' then ['\\', '\\']
  else if c = '\x08' then ['\\', 'b']
  else if c = '\t' then ['\\', 't']
  else if c = '\n' then ['\\', 'n']
  else if c = '\x0c' then ['\\', 'f']
  else if c = '\r' then ['\\', 'r']
  else if c.toNat < 0x20 then
    ['\\', 'u', '0', '0', hexDigit (c.toNat / 16), hexDigit (c.toNat % 16)]
  else [c]

/-- A string in quotation marks. -/
def quote (s : String) : List Char := '"' :: s.toList.flatMap escape ++ ['"']

mutual

/-- The characters of a value. -/
def print : Json → List Char
  | .null => "null".toList
  | .boolean true => "true".toList
  | .boolean false => "false".toList
  | .number n => n.text.toList
  | .string s => quote s
  | .array items => '[' :: printItems items ++ [']']
  | .object members => '\x7b' :: printMembers members ++ ['\x7d']

def printItems : List Json → List Char
  | [] => []
  | [v] => v.print
  | v :: rest => v.print ++ ',' :: printItems rest

def printMembers : Named Json → List Char
  | [] => []
  | [(k, v)] => quote k ++ ':' :: v.print
  | (k, v) :: rest => quote k ++ ':' :: v.print ++ ',' :: printMembers rest

end

/-- The compact text of a value. -/
def text (v : Json) : String := String.ofList v.print

end Json
end CallContract
