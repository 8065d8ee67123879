import Stencil.Text.Utf8

/-!
# Reading files

A disk answers the text of a file or the reason why there is none.  Everything that the library
knows about files it knows from such answers.
-/

namespace Stencil.Include

/-- Why a file cannot be read as text. -/
inductive ReadFault where
  /-- There is no such file. -/
  | notFound
  /-- A part of the path that is not the last one names a file. -/
  | notDirectory
  /-- The path names a directory. -/
  | isDirectory
  /-- The path or one of its parts is too long. -/
  | nameTooLong
  /-- The path holds a character that no path may hold. -/
  | nulInName
  /-- The file holds bytes that are not text. -/
  | notText
  deriving DecidableEq, Repr

/-- The wording of a fault. -/
def ReadFault.message : ReadFault → String
  | .notFound => "No such file or directory (os error 2)"
  | .notDirectory => "Not a directory (os error 20)"
  | .isDirectory => "Is a directory (os error 21)"
  | .nameTooLong => "File name too long (os error 36)"
  | .nulInName => "file name contained an unexpected NUL byte"
  | .notText => "stream did not contain valid UTF-8"

/-- What can be read, by path. -/
structure Disk where
  /-- The text of a file. -/
  read : String → Except ReadFault String

/-- The disk that holds nothing. -/
def Disk.empty : Disk := ⟨fun _ => .error .notFound⟩

end Stencil.Include
