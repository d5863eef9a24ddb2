import CallContract.Schema

/-!
# Formats of strings

When a string is a UUID, a date, or a date with a time. All three are ASCII forms of fixed width but
for the fraction of a second. In dates and times the place of a digit is read leniently, by the low
half of the character's code: the day `2:` is the 30th. What counts is the number that comes out.
The fraction of a second and a UUID have proper digits only.
-/

namespace CallContract.Format

/-- Is the character a hexadecimal digit of either case? -/
def isHex (c : Char) : Bool := c.isDigit || ('a' ≤ c && c ≤ 'f') || ('A' ≤ c && c ≤ 'F')

/-- Five groups of hexadecimal digits with hyphens between them. -/
def isUuid (cs : List Char) : Bool :=
  cs.length = 36 &&
    (cs.zipIdx.all fun (c, i) => if i ∈ [8, 13, 18, 23] then c = '-' else isHex c)

/-- The value of a character in the place of a digit. The sixteen characters from `0` to `?` are
taken, so the six behind `9` have the values from ten to fifteen. -/
def digitValue? (c : Char) : Option Nat :=
  if '0' ≤ c ∧ c ≤ '?' then some (c.toNat - '0'.toNat) else none

/-- The number that characters in the places of decimal digits give. -/
def number? (cs : List Char) : Option Nat :=
  (cs.mapM digitValue?).map fun digits => digits.foldl (fun n d => n * 10 + d) 0

def isLeapYear (year : Nat) : Bool := year % 4 = 0 && (year % 100 ≠ 0 || year % 400 = 0)

/-- The number of days of a month; none for a month that does not exist. -/
def daysIn (year month : Nat) : Nat :=
  if month = 2 then if isLeapYear year then 29 else 28
  else if month ∈ [4, 6, 9, 11] then 30
  else if 1 ≤ month ∧ month ≤ 12 then 31
  else 0

/-- A day of the calendar, written `YYYY-MM-DD`. -/
def isDate : List Char → Bool
  | [y1, y2, y3, y4, '-', m1, m2, '-', d1, d2] =>
    match number? [y1, y2, y3, y4], number? [m1, m2], number? [d1, d2] with
    | some year, some month, some day => 1 ≤ day && day ≤ daysIn year month
    | _, _, _ => false
  | _ => false

example : isDate "2024-04-2:".toList = true ∧ isDate "2024-04-2;".toList = false := by decide

/-- The minutes of a day; none if the hour or the minute does not exist. -/
def minutes? (h1 h2 m1 m2 : Char) : Option Nat :=
  match number? [h1, h2], number? [m1, m2] with
  | some hour, some minute => if hour ≤ 23 ∧ minute ≤ 59 then some (hour * 60 + minute) else none
  | _, _ => none

/-- How many minutes local time is ahead of universal time. -/
def offset? : List Char → Option Int
  | ['Z'] | ['z'] => some 0
  | ['+', h1, h2, ':', m1, m2] => (minutes? h1 h2 m1 m2).map fun n => n
  | ['-', h1, h2, ':', m1, m2] => (minutes? h1 h2 m1 m2).map fun n => -n
  | _ => none

/-- What follows the fraction of a second, if there is one; none if it has no digits. -/
def afterFraction? : List Char → Option (List Char)
  | '.' :: d :: rest => if d.isDigit then some (rest.dropWhile Char.isDigit) else none
  | ['.'] => none
  | cs => some cs

/-- A second that exists: one more than 59 only in the last minute of a day of universal time. -/
def isSecond (second : Nat) (minutes : Nat) (offset : Int) : Bool :=
  second ≤ 59 || (second = 60 && (minutes - offset) % 1440 = 1439)

/-- A time of day with its offset from universal time. -/
def isTime : List Char → Bool
  | h1 :: h2 :: ':' :: m1 :: m2 :: ':' :: s1 :: s2 :: rest =>
    match minutes? h1 h2 m1 m2, number? [s1, s2], (afterFraction? rest).bind offset? with
    | some minutes, some second, some offset => isSecond second minutes offset
    | _, _, _ => false
  | _ => false

/-- A date, a `T` of either case, and a time. -/
def isDateTime (cs : List Char) : Bool :=
  isDate (cs.take 10) &&
    match cs.drop 10 with
    | 'T' :: time | 't' :: time => isTime time
    | _ => false

/-- Does the string have the format? -/
def accepts (f : Format) (s : String) : Bool :=
  match f with
  | .uuid => isUuid s.toList
  | .date => isDate s.toList
  | .dateTime => isDateTime s.toList

end CallContract.Format
