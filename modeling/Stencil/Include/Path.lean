/-!
# Paths

Names of files, with `/` between their parts.  `directory` answers the part of a path that names
its directory, and `join` puts a relative path below a directory.
-/

namespace Stencil.Include

/-- The pieces between slashes; a text without slashes is one piece. -/
def pieces (path : List Char) : List (List Char) := path.splitOn '/'

/-- Pieces with slashes between them. -/
def joinPieces (parts : List (List Char)) : List Char := ['/'].intercalate parts

/-- A path that starts at the root. -/
def isAbsolute (path : List Char) : Bool := path.head? == some '/'

/-- A piece that names nothing: between two slashes, at the end, or a lone dot. -/
def isIdle (piece : List Char) : Bool := piece == [] || piece == ['.']

/-- What a path starts with before its first name: a slash, or a dot that is a piece. -/
def anchor : List Char → List Char
  | '/' :: _ => ['/']
  | ['.'] => ['.']
  | '.' :: '/' :: _ => ['.']
  | _ => []

/-- The path without its last name, and without idle pieces at the end of what is left.  A path
that names nothing has the empty directory. -/
def directory (path : List Char) : List Char :=
  let start := anchor path
  let body := pieces (path.drop start.length)
  match body.reverse.dropWhile isIdle with
  | [] => []
  | _ :: above => start ++ joinPieces (above.dropWhile isIdle).reverse

/-- A path taken from a directory.  An absolute path stays as it is. -/
def join (dir path : List Char) : List Char :=
  if isAbsolute path then path
  else if dir.isEmpty || dir.getLast? == some '/' then dir ++ path
  else dir ++ ['/'] ++ path

end Stencil.Include
