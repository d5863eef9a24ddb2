import CallContract.Text.Place

/-!
# Faults in JSON text

What can be wrong with a text that is meant to be JSON, and where.
-/

namespace CallContract.Json

/-- Ways in which a text is not JSON. -/
inductive Problem where
  | endInValue
  | endInArray
  | endInObject
  | endInString
  | noValue
  | noWord
  | noColon
  | noCommaInArray
  | noCommaInObject
  | nameNotString
  | commaAtEnd
  | textAfterEnd
  | tooDeep
  | badNumber
  | numberTooLarge
  | controlCharacter
  | badEscape
  | loneSurrogate
  | brokenPair
  deriving DecidableEq, Repr

def Problem.message : Problem → String
  | .endInValue => "EOF while parsing a value"
  | .endInArray => "EOF while parsing a list"
  | .endInObject => "EOF while parsing an object"
  | .endInString => "EOF while parsing a string"
  | .noValue => "expected value"
  | .noWord => "expected ident"
  | .noColon => "expected `:`"
  | .noCommaInArray => "expected `,` or `]`"
  | .noCommaInObject => "expected `,` or `\x7d`"
  | .nameNotString => "key must be a string"
  | .commaAtEnd => "trailing comma"
  | .textAfterEnd => "trailing characters"
  | .tooDeep => "recursion limit exceeded"
  | .badNumber => "invalid number"
  | .numberTooLarge => "number out of range"
  | .controlCharacter => "control character (\\u0000-\\u001F) found while parsing a string"
  | .badEscape => "invalid escape"
  | .loneSurrogate => "lone leading surrogate in hex escape"
  | .brokenPair => "unexpected end of hex escape"

/-- A problem and the place up to which the text was read when it showed. -/
structure Fault where
  problem : Problem
  place : Place
  deriving DecidableEq, Repr

def Fault.message (text : List Char) (f : Fault) : String :=
  f.problem.message ++ " at " ++ (f.place.position text).text

end CallContract.Json
