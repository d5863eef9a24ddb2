import CallContract.Named
import CallContract.Text.Split
import CallContract.Text.Utf8

/-!
# Fragments

A reference leads to a definition by a URI fragment that holds a JSON Pointer. In a pointer token
`~` is written `~0` and `/` is written `~1`; in a fragment every byte that is not unreserved is
percent-encoded.
-/

namespace CallContract.Fragment

/-- A character as it stands in a pointer token. -/
def tokenChar (c : Char) : List Char :=
  if c = '~' then ['~', '0'] else if c = '/' then ['~', '1'] else [c]

/-- A name as a pointer token. -/
def token (name : List Char) : List Char := name.flatMap tokenChar

/-- The name that a pointer token stands for. -/
def untoken : List Char → List Char
  | [] => []
  | '~' :: '1' :: rest => '/' :: untoken rest
  | '~' :: '0' :: rest => '~' :: untoken rest
  | c :: rest => c :: untoken rest

/-- Does the byte stand for itself in a fragment? -/
def isUnreserved (b : UInt8) : Bool :=
  let c := Char.ofNat b.toNat
  b < 128 && (c.isAlphanum || c = '-' || c = '.' || c = '_' || c = '~')

/-- The upper-case hexadecimal digit for a number below 16. -/
def hexDigit (n : Nat) : Char := if n < 10 then Char.ofNat (48 + n) else Char.ofNat (55 + n)

/-- A byte as it stands in a fragment. -/
def percentByte (b : UInt8) : List Char :=
  if isUnreserved b then [Char.ofNat b.toNat]
  else ['%', hexDigit (b.toNat / 16), hexDigit (b.toNat % 16)]

def hexValue? (c : Char) : Option Nat :=
  if '0' ≤ c ∧ c ≤ '9' then some (c.toNat - 48)
  else if 'A' ≤ c ∧ c ≤ 'F' then some (c.toNat - 55)
  else if 'a' ≤ c ∧ c ≤ 'f' then some (c.toNat - 87)
  else none

/-- The bytes that a percent-encoded text stands for. -/
def percentDecode : List Char → List UInt8
  | [] => []
  | '%' :: a :: b :: rest =>
    match hexValue? a, hexValue? b with
    | some a, some b => UInt8.ofNat (a * 16 + b) :: percentDecode rest
    | _, _ => utf8 ['%'] ++ percentDecode (a :: b :: rest)
  | c :: rest => utf8 [c] ++ percentDecode rest

/-- The key under which a schema keeps its definitions. -/
def definitionsKey : String := "$defs"

/-- The fragment that leads to the definition of a name. -/
def ofName (name : String) : String :=
  "#/$defs/" ++ String.ofList ((utf8 (token name.toList)).flatMap percentByte)

/-- The names on the way that a fragment describes. -/
def names? (fragment : String) : Option (List String) :=
  match fragment.toList with
  | '#' :: encoded =>
    match ofUtf8? (percentDecode encoded) with
    | some ('/' :: pointer) =>
      some ((Text.split '/' pointer).map fun t => String.ofList (untoken t))
    | _ => none
  | _ => none

/-- The name of the definition that a fragment leads to. -/
def target? (fragment : String) : Option String :=
  match names? fragment with
  | some [key, name] => if key = definitionsKey then some name else none
  | _ => none

/-- The definition that a fragment leads to. -/
def find? {α : Type} (defs : Named α) (fragment : String) : Option α :=
  (target? fragment).bind fun name => defs.lookup name

end CallContract.Fragment
