/-
  `Files` — what the checker finds at a path.

  A lookup gives the content of a file, or says why there is none to be read; a directory is
  found, but cannot be read. Texts are in UTF-8.

  `Files` is a set of files under one directory. The slashes in the names of files make further
  directories. A path is walked part by part from the directory at hand: empty parts and single
  dots stay, two dots go up, and every other part has to be the name of something in a directory.
  Around the directory at hand there are other directories, but no files that are known.
-/
namespace Earley.Command

/-- Why a path, or the standard input, cannot be read as a text. -/
inductive ReadError
  | notFound
  | isDirectory
  | notDirectory
  | nameTooLong
  | permissionDenied
  | notUtf8
  /-- Some other reason, in its own words. -/
  | other (message : String)
  deriving DecidableEq

/-- The wording of a reason. -/
def ReadError.message : ReadError → String
  | notFound => "No such file or directory (os error 2)"
  | isDirectory => "Is a directory (os error 21)"
  | notDirectory => "Not a directory (os error 20)"
  | nameTooLong => "File name too long (os error 36)"
  | permissionDenied => "Permission denied (os error 13)"
  | notUtf8 => "stream did not contain valid UTF-8"
  | other message => message

/-- The text that bytes hold in UTF-8. -/
def decodeText (bytes : ByteArray) : Except ReadError String :=
  match String.fromUTF8? bytes with
  | some text => .ok text
  | none => .error .notUtf8

/-- What is found at a path. -/
inductive Entry
  /-- A regular file, with its content. -/
  | file (content : Except ReadError ByteArray)
  /-- No regular file; the reason says what it means to read there. -/
  | nothing (reason : ReadError)

namespace Entry

/-- Tells whether there is a regular file. -/
def isFile : Entry → Bool
  | file _ => true
  | nothing _ => false

/-- The text of a file. -/
def text : Entry → Except ReadError String
  | file (.ok bytes) => decodeText bytes
  | file (.error e) => .error e
  | nothing reason => .error reason

end Entry

/-! ### A set of files -/

/-- The parts of a path, between its slashes. -/
def pathParts (path : String) : List String :=
  (path.toList.splitOn '/').map String.ofList

/-- Files under one directory, each with the parts of its path. -/
structure Files where
  entries : List (List String × ByteArray)

namespace Files

/-- The files with the given names and contents. -/
def ofList (files : List (String × ByteArray)) : Files :=
  ⟨files.map fun file =>
    ((pathParts file.1).filter fun part => !part.isEmpty && part != ".", file.2)⟩

/-- The content of the file at exactly these parts. -/
def content? (fs : Files) (place : List String) : Option ByteArray :=
  (fs.entries.find? fun entry => entry.1 == place).map Prod.snd

/-- Tells whether some file lies below these parts, which are then a directory; the directory at
hand always is one. -/
def isDirectory (fs : Files) (place : List String) : Bool :=
  place.isEmpty ||
    fs.entries.any fun entry => place.isPrefixOf entry.1 && place.length < entry.1.length

/-- The longest name of a file, in bytes. -/
def longestName : Nat := 255

/-- The longest path, in bytes. -/
def longestPath : Nat := 4095

/-- What is found by walking on from a directory around the one at hand: the first part that is a
name ends the walk. -/
def outside : List String → Entry
  | [] => .nothing .isDirectory
  | part :: parts =>
    if part.isEmpty || part == "." || part == ".." then outside parts
    else if longestName < part.utf8ByteSize then .nothing .nameTooLong
    else .nothing .notFound

/-- What is found by walking `parts` from the place `here`. -/
def walk (fs : Files) (here : List String) : List String → Entry
  | [] =>
    match fs.content? here with
    | some bytes => .file (.ok bytes)
    | none => if fs.isDirectory here then .nothing .isDirectory else .nothing .notFound
  | part :: parts =>
    if fs.isDirectory here then
      if part.isEmpty || part == "." then walk fs here parts
      else if part == ".." then
        if here.isEmpty then outside parts else walk fs here.dropLast parts
      else if longestName < part.utf8ByteSize then .nothing .nameTooLong
      else walk fs (here ++ [part]) parts
    else if (fs.content? here).isSome then .nothing .notDirectory
    else .nothing .notFound

/-- What is found at a path; one that begins with a slash does not begin in the directory at
hand. -/
def lookup (fs : Files) (path : String) : Entry :=
  if path.isEmpty then .nothing .notFound
  else if longestPath < path.utf8ByteSize then .nothing .nameTooLong
  else if path.startsWith "/" then outside (pathParts path)
  else fs.walk [] (pathParts path)

end Files

end Earley.Command
