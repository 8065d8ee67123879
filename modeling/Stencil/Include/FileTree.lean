import Stencil.Include.Disk
import Stencil.Include.Path

/-!
# Trees of files

Directories and files as a tree, and the way a path is followed through them: from the root or the
working directory, piece by piece, where `..` goes back up and every piece but the last must lead
to a directory.
-/

namespace Stencil.Include

/-- A file or a directory. -/
inductive Node where
  /-- A file and what it holds. -/
  | file (content : Text.Bytes)
  /-- A directory and what it holds. -/
  | dir (entries : List (String × Node))
  deriving Inhabited

/-- Files below a root, seen from a working directory. -/
structure FileTree where
  /-- The root directory. -/
  root : Node
  /-- The names that lead from the root to the working directory. -/
  cwd : List String

namespace Node

/-- What a directory holds under a name. -/
def child? (node : Node) (name : String) : Option Node :=
  match node with
  | .dir entries => entries.lookup name
  | .file _ => none

/-- Whether a node is a directory. -/
def isDir : Node → Bool
  | .dir _ => true
  | .file _ => false

/-- Entries with one of them replaced, or added. -/
def setEntry (name : String) (node : Node) : List (String × Node) → List (String × Node)
  | [] => [(name, node)]
  | (n, old) :: rest =>
    if n = name then (name, node) :: rest else (n, old) :: setEntry name node rest

/-- Puts a node at a path below another one; directories on the way are made. -/
def insert (node : Node) (new : Node) : List String → Node
  | [] => new
  | name :: rest =>
    let entries := match node with
      | .dir entries => entries
      | .file _ => []
    let below := (entries.lookup name).getD (.dir [])
    .dir (setEntry name (insert below new rest) entries)

/-- The greatest number of bytes in the name of a file. -/
def maxName : Nat := 255

/-- Follows the pieces of a path.  `trail` holds the node that has been reached and, after it, the
directories that lead to it, up to the root. -/
def follow (trail : List Node) : List (List Char) → Except ReadFault Node
  | [] => .ok (trail.headD (.dir []))
  | piece :: rest =>
    match trail with
    | [] => .error .notFound
    | here :: above =>
      if !here.isDir then .error .notDirectory
      else if isIdle piece then follow trail rest
      else if piece = ['.', '.'] then follow (if above.isEmpty then trail else above) rest
      else if maxName < Text.byteSize piece then .error .nameTooLong
      else
        match here.child? (String.ofList piece) with
        | some node => follow (node :: trail) rest
        | none => .error .notFound

end Node

namespace FileTree

/-- The greatest number of bytes in a path. -/
def maxPath : Nat := 4095

/-- The trail from the root down a list of names; it ends where a name leads nowhere. -/
def trailTo (trail : List Node) : List String → List Node
  | [] => trail
  | name :: rest =>
    match trail.head?.bind (·.child? name) with
    | some node => trailTo (node :: trail) rest
    | none => trail

/-- The node at a path. -/
def find (t : FileTree) (path : List Char) : Except ReadFault Node :=
  if path.contains '\x00' then .error .nulInName
  else if path.isEmpty then .error .notFound
  else if maxPath < Text.byteSize path then .error .nameTooLong
  else if isAbsolute path then Node.follow [t.root] (pieces path)
  else Node.follow (trailTo [t.root] t.cwd) (pieces path)

/-- The text of the file at a path. -/
def read (t : FileTree) (path : String) : Except ReadFault String :=
  match t.find path.toList with
  | .error fault => .error fault
  | .ok (.dir _) => .error .isDirectory
  | .ok (.file content) =>
    match Text.decode? content with
    | some text => .ok (String.ofList text)
    | none => .error .notText

/-- The disk that holds a tree. -/
def disk (t : FileTree) : Disk := ⟨t.read⟩

/-- A tree with one directory, which holds what is given and is the working directory. -/
def ofFiles (cwd : List String) (files : List (String × Option Text.Bytes)) : FileTree :=
  let base := Node.insert (.dir []) (.dir []) cwd
  let root := files.foldl (fun root (path, content) =>
    let names := ((pieces path.toList).filter (!isIdle ·)).map String.ofList
    let node := match content with
      | some bytes => Node.file bytes
      | none => .dir []
    root.insert node (cwd ++ names)) base
  ⟨root, cwd⟩

end FileTree

end Stencil.Include
