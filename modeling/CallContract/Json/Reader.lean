import CallContract.Json.NumberLiteral
import CallContract.Json.Reading
import CallContract.Json.StringLiteral

/-!
# Reading JSON text

The reader turns a text into a reading, up to the first fault. `Json.read` is for those who want the
value only: the reading has to be whole and nothing but blanks may follow it.
-/

namespace CallContract.Json

/-- The blanks of JSON. -/
def isBlank (c : Char) : Bool := c = ' ' || c = '\t' || c = '\n' || c = '\r'

/-- A text from its first character that is not blank. -/
def skip (cs : List Char) : List Char := cs.dropWhile isBlank

theorem skip_length (cs : List Char) : (skip cs).length ≤ cs.length :=
  (List.dropWhile_suffix _).length_le

/-- How many arrays and objects may lie around a value. -/
def nestingLimit : Nat := 127

/-- What was read from the beginning of `cs`, and what is left. -/
structure Taken (α : Type) (cs : List Char) where
  result : α
  rest : List Char
  le : rest.length ≤ cs.length

/-- Nothing is left to read after a fault. -/
def Taken.nothing {α : Type} {cs : List Char} (result : α) : Taken α cs := ⟨result, [], by simp⟩

/-- Reads the rest of a word of which the first letter has been read. -/
def word : (expected : List Char) → List Char → Except Fault (List Char)
  | [], cs => .ok cs
  | _ :: _, [] => .error ⟨.endInValue, .here []⟩
  | e :: expected, c :: rest =>
    if c = e then word expected rest else .error ⟨.noWord, .past (c :: rest)⟩

theorem word_length {expected cs rest : List Char} (h : word expected cs = .ok rest) :
    rest.length ≤ cs.length := by
  induction expected generalizing cs with
  | nil =>
    simp only [word, Except.ok.injEq] at h
    simp [h]
  | cons e expected ih =>
    cases cs with
    | nil => simp [word] at h
    | cons c cs =>
      unfold word at h
      split at h
      · exact Nat.le_succ_of_le (ih h)
      · simp at h

/-- Where the reader stands if it gives up an object after a name: past blanks, and past the bracket
if that closes the object. -/
def afterName (cs : List Char) : Place :=
  match skip cs with
  | '\x7d' :: rest => .here rest
  | rest => .here rest

/-- A reading with the places and faults of a text. -/
abbrev TextReading := Reading Place Fault

/-- The ending of a container that a problem cuts off. -/
def cutOff (problem : Problem) (place : Place) : Ending Place Fault := .cut ⟨problem, place⟩

mutual

/-- Reads a value. `room` tells how many more arrays and objects may open around what is inside. -/
def readValue (room : Nat) (cs : List Char) : Taken TextReading cs :=
  have shorter := skip_length cs
  match hs : skip cs with
  | [] => .nothing (.broken ⟨.endInValue, .here []⟩)
  | c :: rest =>
    have hr : rest.length < cs.length := by
      rw [hs] at shorter
      exact shorter
    if c = '"' then
      match hl : stringLiteral rest with
      | .ok (s, left) =>
        ⟨.string (String.ofList s) (.here left), left,
          Nat.le_of_lt (Nat.lt_trans (stringLiteral_length hl) hr)⟩
      | .error f => .nothing (.broken f)
    -- The bracket is met before it is known whether another container may be opened.
    else if c = '[' then
      match room with
      | 0 => .nothing (.broken ⟨.tooDeep, .past (c :: rest)⟩)
      | room + 1 =>
        let t := readItems room true rest
        ⟨.array (.here (c :: rest)) t.result.1 t.result.2, t.rest,
          Nat.le_trans t.le (Nat.le_of_lt hr)⟩
    else if c = '\x7b' then
      match room with
      | 0 => .nothing (.broken ⟨.tooDeep, .past (c :: rest)⟩)
      | room + 1 =>
        let t := readMembers room true rest
        ⟨.object (.here (c :: rest)) t.result.1 t.result.2, t.rest,
          Nat.le_trans t.le (Nat.le_of_lt hr)⟩
    else if c = 'n' then
      match hw : word ['u', 'l', 'l'] rest with
      | .ok left =>
        ⟨.null (.here left), left, Nat.le_trans (word_length hw) (Nat.le_of_lt hr)⟩
      | .error f => .nothing (.broken f)
    else if c = 't' then
      match hw : word ['r', 'u', 'e'] rest with
      | .ok left =>
        ⟨.boolean true (.here left), left, Nat.le_trans (word_length hw) (Nat.le_of_lt hr)⟩
      | .error f => .nothing (.broken f)
    else if c = 'f' then
      match hw : word ['a', 'l', 's', 'e'] rest with
      | .ok left =>
        ⟨.boolean false (.here left), left, Nat.le_trans (word_length hw) (Nat.le_of_lt hr)⟩
      | .error f => .nothing (.broken f)
    else if c = '-' || c.isDigit then
      match hn : numberLiteral (c :: rest) with
      | .ok (n, left) =>
        ⟨.number n (.here left), left,
          Nat.le_trans (Nat.le_of_lt_succ (numberLiteral_length hn)) (Nat.le_of_lt hr)⟩
      | .error f => .nothing (.broken f)
    else .nothing (.broken ⟨.noValue, .past (c :: rest)⟩)
termination_by (cs.length, 0)

/-- Reads the items of an array from behind its bracket (`first`) or from behind a comma. -/
def readItems (room : Nat) (first : Bool) (cs : List Char) :
    Taken (List TextReading × Ending Place Fault) cs :=
  match skip cs, skip_length cs with
  -- Behind a comma a value is expected, so the array itself is no longer blamed.
  | [], _ => .nothing ([], cutOff (if first then .endInArray else .endInValue) (.here []))
  | ']' :: rest, h =>
    if first then ⟨([], .closed (.here rest)), rest, Nat.le_of_lt h⟩
    else .nothing ([], cutOff .commaAtEnd (.past (']' :: rest)))
  | _ :: _, _ =>
    let item := readValue room cs
    match skip item.rest, Nat.le_trans (skip_length item.rest) item.le with
    | [], _ => .nothing ([item.result], cutOff .endInArray (.here []))
    | ']' :: rest, h => ⟨([item.result], .closed (.here rest)), rest, Nat.le_of_lt h⟩
    | ',' :: rest, h =>
      have : rest.length < cs.length := h
      let more := readItems room false rest
      ⟨(item.result :: more.result.1, more.result.2), more.rest,
        Nat.le_trans more.le (Nat.le_of_lt this)⟩
    | c :: rest, _ => .nothing ([item.result], cutOff .noCommaInArray (.past (c :: rest)))
termination_by (cs.length, 1)

/-- Reads the members of an object from behind its bracket (`first`) or from behind a comma. -/
def readMembers (room : Nat) (first : Bool) (cs : List Char) :
    Taken (List (String × Place × TextReading) × Ending Place Fault) cs :=
  match skip cs, skip_length cs with
  | [], _ => .nothing ([], cutOff (if first then .endInObject else .endInValue) (.here []))
  | '\x7d' :: rest, h =>
    if first then ⟨([], .closed (.here rest)), rest, Nat.le_of_lt h⟩
    else .nothing ([], cutOff .commaAtEnd (.past ('\x7d' :: rest)))
  | '"' :: literal, h =>
    match hl : stringLiteral literal with
    | .error f => .nothing ([], .cut f)
    | .ok (s, afterLiteral) =>
      have hk : afterLiteral.length < cs.length := Nat.lt_trans (stringLiteral_length hl) h
      let name := String.ofList s
      let mark := afterName afterLiteral
      match skip afterLiteral, Nat.lt_of_le_of_lt (skip_length afterLiteral) hk with
      | [], _ =>
        .nothing ([(name, mark, .broken ⟨.endInObject, .here []⟩)], cutOff .endInObject (.here []))
      | ':' :: afterColon, hc =>
        have : afterColon.length < cs.length := Nat.lt_of_succ_lt hc
        let item := readValue room afterColon
        have hs : (skip item.rest).length < cs.length :=
          Nat.lt_of_le_of_lt (Nat.le_trans (skip_length item.rest) item.le) this
        match skip item.rest, hs with
        | [], _ => .nothing ([(name, mark, item.result)], cutOff .endInObject (.here []))
        | '\x7d' :: rest, h =>
          ⟨([(name, mark, item.result)], .closed (.here rest)), rest,
            Nat.le_of_lt (Nat.lt_of_succ_lt h)⟩
        | ',' :: rest, h =>
          have : rest.length < cs.length := Nat.lt_of_succ_lt h
          let more := readMembers room false rest
          ⟨((name, mark, item.result) :: more.result.1, more.result.2), more.rest,
            Nat.le_trans more.le (Nat.le_of_lt this)⟩
        | c :: rest, _ =>
          .nothing ([(name, mark, item.result)], cutOff .noCommaInObject (.past (c :: rest)))
      | c :: rest, _ =>
        .nothing ([(name, mark, .broken ⟨.noColon, .past (c :: rest)⟩)],
          cutOff .noColon (.past (c :: rest)))
  | c :: rest, _ => .nothing ([], cutOff .nameNotString (.past (c :: rest)))
termination_by (cs.length, 1)

end

/-- Nothing, or the fault that something other than blanks follows. -/
def checkEnd (cs : List Char) : Except Fault Unit :=
  match skip cs with
  | [] => .ok ()
  | c :: rest => .error ⟨.textAfterEnd, .past (c :: rest)⟩

/-- The value that a whole text stands for, with at most `room` arrays and objects around one
another. -/
def readWithin (room : Nat) (cs : List Char) : Except Fault Json := do
  let t := readValue room cs
  let v ← t.result.value
  checkEnd t.rest
  return v

/-- The value that a whole text stands for. -/
def read (cs : List Char) : Except Fault Json := readWithin nestingLimit cs

end CallContract.Json
