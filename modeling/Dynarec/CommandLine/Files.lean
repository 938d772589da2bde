/-
  Dynarec.CommandLine.Files

  The files that the program reads: contents by path, and why a path leads to
  none. `Files.ofDirectory` walks a path from a directory whose files are known.
-/
namespace Dynarec.CommandLine

/-- Why a file cannot be read. -/
inductive FileError where
  | notFound
  | notDirectory
  | isDirectory
  | nameTooLong
  | notText
  | other (reason : String)
deriving DecidableEq, Inhabited

def FileError.message : FileError → String
  | .notFound => "No such file or directory (os error 2)"
  | .notDirectory => "Not a directory (os error 20)"
  | .isDirectory => "Is a directory (os error 21)"
  | .nameTooLong => "File name too long (os error 36)"
  | .notText => "stream did not contain valid UTF-8"
  | .other reason => reason

/-- Contents of files by path. -/
abbrev Files := String → Except FileError ByteArray

/-! ## Walking a path -/

/-- Where a walk along a path has got to. -/
inductive Place where
  /-- The directory whose files are known. -/
  | here
  /-- Some directory that holds no file to be read. -/
  | elsewhere
  | file (bytes : ByteArray)

namespace Place

/-- The longest name of a file in bytes. -/
def maxName : Nat := 255

/-- The longest path in bytes. -/
def maxPath : Nat := 4095

/-- Where a path starts: at its root if it begins with a slash. -/
def start (path : String) : Place := if path.startsWith "/" then .elsewhere else .here

/-- Follow one part of a path. Nothing follows a file, not even an empty part. -/
def follow (contents : List (String × ByteArray)) (place : Place) (name : String) :
    Except FileError Place :=
  match place with
  | .file _ => .error .notDirectory
  | .here | .elsewhere =>
    if name = "" || name = "." then .ok place
    else if name = ".." then .ok .elsewhere
    else if maxName < name.utf8ByteSize then .error .nameTooLong
    else match place, contents.lookup name with
      | .here, some bytes => .ok (.file bytes)
      | _, _ => .error .notFound

/-- What is read at a place. -/
def read : Place → Except FileError ByteArray
  | .file bytes => .ok bytes
  | .here | .elsewhere => .error .isDirectory

end Place

/-- The files as they are seen from a directory that holds these and nothing else. -/
def Files.ofDirectory (contents : List (String × ByteArray)) : Files := fun path => do
  if Place.maxPath < path.utf8ByteSize then throw .nameTooLong
  (← (path.splitOn "/").foldlM (Place.follow contents) (Place.start path)).read

end Dynarec.CommandLine
