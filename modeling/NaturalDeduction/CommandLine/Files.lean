/-!
# Files

* `ReadError`        why a file cannot be read;
* `Directory`        files in memory, by their paths;
* `Directory.read`   the content of a file, as a file system would give it.
-/

namespace NaturalDeduction.CommandLine

inductive ReadError where
  | notFound
  | isDirectory
  | notDirectory
  /-- the path, or one of its parts, has too many bytes -/
  | nameTooLong
  /-- the path holds the character that ends a path -/
  | nullByte
  | other (message : String)
  deriving DecidableEq, Repr

def ReadError.message : ReadError → String
  | notFound => "No such file or directory"
  | isDirectory => "Is a directory"
  | notDirectory => "Not a directory"
  | nameTooLong => "File name too long"
  | nullByte => "embedded null byte"
  | other m => m

/-- Files with their paths below a directory. -/
structure Directory where
  files : List (List String × ByteArray)

def pathParts (path : String) : List String := path.splitOn "/"

/-- A directory with files of the given names. -/
def Directory.ofFiles (files : List (String × ByteArray)) : Directory :=
  ⟨files.map fun f => (pathParts f.1, f.2)⟩

/-- Whether a part of a path stays in the directory that it is met in. -/
def staysThere (part : String) : Bool := part == "" || part == "."

def isLongName (part : String) : Bool := part.utf8ByteSize > 255

def isLongPath (path : String) : Bool := path.utf8ByteSize ≥ 4096

/-- What is found outside the directory: other directories, and no files. -/
def readOutside (parts : List String) : Except ReadError ByteArray :=
  match parts.find? fun p => !(staysThere p || p == "..") with
  | none => .error .isDirectory
  | some p => if isLongName p then .error .nameTooLong else .error .notFound

/-- Follows a path from the place `here` in the directory, the last part first. -/
def Directory.follow (d : Directory) (here : List String) : List String →
    Except ReadError ByteArray
  | [] => .error .isDirectory
  | part :: rest =>
    if staysThere part then d.follow here rest
    else if part == ".." then
      match here with
      | [] => readOutside rest
      | _ :: up => d.follow up rest
    else if isLongName part then .error .nameTooLong
    else
      let place := (part :: here).reverse
      match d.files.find? fun f => f.1 == place with
      | some f => if rest.isEmpty then .ok f.2 else .error .notDirectory
      | none =>
        if d.files.any fun f => place.isPrefixOf f.1 then d.follow (part :: here) rest
        else .error .notFound

def Directory.read (d : Directory) (path : String) : Except ReadError ByteArray :=
  if path.toList.contains '\x00' then .error .nullByte
  else if isLongPath path then .error .nameTooLong
  else
    match pathParts path with
    | [""] => .error .notFound
    | "" :: parts => readOutside parts
    | parts => d.follow [] parts

end NaturalDeduction.CommandLine
