import CallContract.Files.Tree
import CallContract.Validation

/-!
# Documents in files

Reading a document from a path in a file system.
-/

namespace CallContract

inductive FileError where
  | notFound (path : Path)
  | unreadable (path : Path) (reason : String)
  | unread (error : DocumentError)
  deriving DecidableEq, Repr

namespace FileError

def findings : FileError → List Finding
  | .unread e => e.findings
  | .notFound _ | .unreadable _ _ => []

def message : FileError → String
  | .notFound path => "file not found: " ++ path.text
  | .unreadable path reason => "cannot read " ++ path.text ++ ": " ++ reason
  | .unread e => e.message

end FileError

/-- The text of a file, or why there is none. -/
def FileTree.text? : FileTree → Except String String
  | .file bytes =>
    match ofUtf8? bytes with
    | some cs => .ok (String.ofList cs)
    | none => .error "stream did not contain valid UTF-8"
  | .directory _ => .error "Is a directory (os error 21)"
  | .guarded reason | .locked reason => .error reason

def Document.load (files : FileSystem) (path : Path) : Except FileError Document :=
  match files.find? path with
  | none => .error (.notFound path)
  | some t =>
    match t.text? with
    | .error reason => .error (.unreadable path reason)
    | .ok text => (Document.ofText text).mapError .unread

def Contract.load (files : FileSystem) (path : Path) (s : Strictness) :
    Except (LoadError FileError) Contract :=
  Contract.ofDocument (Document.load files path) s

end CallContract
