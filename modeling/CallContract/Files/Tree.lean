import CallContract.Files.Path
import CallContract.Named

/-!
# File trees

A tree of files and directories, and what paths lead to in it. A path is followed segment by
segment, and every segment, idle ones included, needs a directory to start from. A path with a slash
in front starts at the root, any other one where the program is.
-/

namespace CallContract

/-- A file with its bytes, or a directory with its entries; either may be out of reach, for a reason
that the system tells. -/
inductive FileTree where
  | file (bytes : List UInt8)
  /-- A file that cannot be read. -/
  | guarded (reason : String)
  | directory (entries : List (String × FileTree))
  /-- A directory that can be neither listed nor entered. -/
  | locked (reason : String)
  deriving Repr, Inhabited

namespace FileTree

def isDirectory : FileTree → Bool
  | .directory _ | .locked _ => true
  | .file _ | .guarded _ => false

/-- Follows segments from a place in a tree, given the directories around it (innermost first). -/
def follow (around : List FileTree) (t : FileTree) : List (List Char) → Option FileTree
  | [] => some t
  | s :: rest =>
    match t with
    -- Nothing lies behind a file, not even after a slash at the end of the path.
    | .file _ | .guarded _ | .locked _ => none
    | .directory entries =>
      if Path.isIdle s then follow around t rest
      else if s = ['.', '.'] then
        match around with
        -- Two dots lead from the root to the root.
        | [] => follow [] t rest
        | outer :: around => follow around outer rest
      else
        match entries.lookup (String.ofList s) with
        | some inner => follow (t :: around) inner rest
        | none => none

mutual

/-- The paths of all documents in a tree whose own path is `p`. Directories are no documents. -/
def documents (p : Path) : FileTree → List Path
  | .file _ | .guarded _ => if p.isDocument then [p] else []
  | .directory entries => documentsAmong p entries
  | .locked _ => []

/-- The paths of all documents in the entries of the directory `p`. -/
def documentsAmong (p : Path) : List (String × FileTree) → List Path
  | [] => []
  | (name, t) :: rest => t.documents (p.join name) ++ documentsAmong p rest

end

end FileTree

/-- All files there are, and where the program is: the names on the way from the root. -/
structure FileSystem where
  root : FileTree
  here : List String
  deriving Repr, Inhabited

namespace FileSystem

/-- The segments on the way to where a path starts. -/
def start (files : FileSystem) (p : Path) : List (List Char) :=
  if p.text.toList.head? = some '/' then [] else files.here.map String.toList

/-- What a path leads to. The empty path leads nowhere. -/
def find? (files : FileSystem) (p : Path) : Option FileTree :=
  if p.text = "" then none
  else files.root.follow [] (files.start p ++ Text.split '/' p.text.toList)

end FileSystem
end CallContract
