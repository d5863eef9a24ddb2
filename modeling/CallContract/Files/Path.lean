import CallContract.Text.Split

/-!
# Paths

A path is a text; what it means is its list of components. Repeated and final slashes do not count,
nor does a single dot inside a path, but a dot in front is a component of its own. Paths are ordered
by their components, from the outside to the inside.
-/

namespace CallContract

/-- A path as it is written. -/
structure Path where
  text : String
  deriving DecidableEq, Repr, Inhabited

namespace Path

/-- One component of a path. -/
inductive Component where
  | root
  | here
  | up
  | name (s : String)
  deriving DecidableEq, Repr

namespace Component

/-- The rank of a kind of component: the root, the dot, the double dot, names. -/
def rank : Component → Nat
  | .root => 0
  | .here => 1
  | .up => 2
  | .name _ => 3

/-- Does the first component come before the second? Names are ordered by their characters. -/
def before : Component → Component → Bool
  | .name a, .name b => a < b
  | a, b => a.rank < b.rank

end Component

/-- What a path begins with, if that is not a name. -/
inductive Anchor where
  | root
  | here
  deriving DecidableEq, Repr

/-- The anchor of a path and the segments between the slashes behind it. -/
def parts (p : Path) : Option Anchor × List (List Char) :=
  match p.text.toList with
  | '/' :: rest => (some .root, Text.split '/' rest)
  | ['.'] => (some .here, [])
  | '.' :: '/' :: rest => (some .here, Text.split '/' rest)
  | cs => (none, Text.split '/' cs)

/-- Does a segment count for nothing? -/
def isIdle (segment : List Char) : Bool := segment = [] || segment = ['.']

def component (segment : List Char) : Component :=
  if segment = ['.', '.'] then .up else .name (String.ofList segment)

def Anchor.component : Anchor → Component
  | .root => .root
  | .here => .here

/-- The text of an anchor before further segments. -/
def Anchor.lead : Anchor → List Char
  | .root => ['/']
  | .here => ['.', '/']

/-- The text of an anchor that stands alone. -/
def Anchor.alone : Anchor → List Char
  | .root => ['/']
  | .here => ['.']

def components (p : Path) : List Component :=
  let (anchor, segments) := p.parts
  (anchor.map Anchor.component).toList ++ (segments.filter (!isIdle ·)).map component

/-- Do these components come before those, or are they the same? -/
def inOrder : List Component → List Component → Bool
  | [], _ => true
  | _ :: _, [] => false
  | a :: as, b :: bs => a.before b || (a = b && inOrder as bs)

def le (p q : Path) : Bool := inOrder p.components q.components

/-- The segments without idle ones at the end. -/
def trimEnd (segments : List (List Char)) : List (List Char) :=
  (segments.reverse.dropWhile isIdle).reverse

/-- What is left of segments after the first `n` that count. -/
def dropSegments : Nat → List (List Char) → List (List Char)
  | 0, segments => segments
  | _ + 1, [] => []
  | n + 1, s :: rest => if isIdle s then dropSegments (n + 1) rest else dropSegments n rest

def trimmed (p : Path) : List Char :=
  let (anchor, segments) := p.parts
  let rest := Text.join '/' (trimEnd segments)
  match anchor with
  | none => rest
  | some a => if (trimEnd segments).isEmpty then a.alone else a.lead ++ rest

/-- The text behind the first `n` components. -/
def behind (p : Path) : Nat → List Char
  | 0 => p.trimmed
  | n + 1 =>
    let (anchor, segments) := p.parts
    -- The anchor is a component, so one segment less has to be dropped behind it.
    let left := dropSegments (if anchor.isSome then n else n + 1) segments
    Text.join '/' (trimEnd (left.dropWhile isIdle))

/-- The path from `base` on, if `base` leads towards it. -/
def relativeTo? (p base : Path) : Option Path :=
  if base.components.isPrefixOf p.components then
    some ⟨String.ofList (p.behind base.components.length)⟩
  else none

/-- The path of an entry of a directory. -/
def join (p : Path) (name : String) : Path :=
  if p.text = "" ∨ p.text.toList.getLast? = some '/' then ⟨p.text ++ name⟩
  else ⟨p.text ++ "/" ++ name⟩

/-- What the names of documents end with. -/
def documentEnding : List Char := ".json".toList

/-- Is the last component a name that has something before the ending of documents? -/
def isDocument (p : Path) : Bool :=
  match p.components.getLast? with
  | some (.name s) =>
    documentEnding.isSuffixOf s.toList && documentEnding.length < s.length
  | _ => false

end Path
end CallContract
