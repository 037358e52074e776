namespace Lisplet

inductive ReadFault
  | notFound | isDirectory | notDirectory | nameTooLong | notText
  | other (reason : String)
  deriving DecidableEq

def ReadFault.message : ReadFault → String
  | notFound => "No such file or directory (os error 2)"
  | isDirectory => "Is a directory (os error 21)"
  | notDirectory => "Not a directory (os error 20)"
  | nameTooLong => "File name too long (os error 36)"
  | notText => "stream did not contain valid UTF-8"
  | other reason => reason

def decodeText (bytes : ByteArray) : Except ReadFault String :=
  match String.fromUTF8? bytes with
  | some text => .ok text
  | none => .error .notText

namespace Path

def join (first second : String) : String :=
  if second.startsWith "/" || first = "" then second
  else if first.endsWith "/" then first ++ second
  else first ++ "/" ++ second

def components (path : String) : List String := path.splitOn "/"

def maxNameBytes : Nat := 255

def maxPathBytes : Nat := 4095

end Path

/-- Files under a working directory, by the names on the way to them. Directories are those names
that have something in them. -/
structure Files where
  contents : List (List String × ByteArray) := []

namespace Files

def ofPaths (contents : List (String × ByteArray)) : Files where
  contents := contents.map fun (path, bytes) =>
    ((Path.components path).filter fun name => name ∉ ["", "."], bytes)

inductive Spot
  | above
  | directory (names : List String)
  | file (bytes : ByteArray)

def enter (files : Files) : Spot → String → Except ReadFault Spot
  | .file _, _ => .error .notDirectory
  | .above, name => if name ∈ ["", ".", ".."] then .ok .above else .error .notFound
  | .directory names, name =>
    if name ∈ ["", "."] then .ok (.directory names)
    else if name = ".." then .ok (if names.isEmpty then .above else .directory names.dropLast)
    else if Path.maxNameBytes < name.utf8ByteSize then .error .nameTooLong
    else
      let names := names ++ [name]
      match files.contents.lookup names with
      | some bytes => .ok (.file bytes)
      | none =>
        if files.contents.any fun e => names.isPrefixOf e.1 then .ok (.directory names)
        else .error .notFound

def find (files : Files) (path : String) : Except ReadFault Spot :=
  if path = "" then .error .notFound
  else if Path.maxPathBytes < path.utf8ByteSize then .error .nameTooLong
  else (Path.components path).foldlM files.enter
    (if path.startsWith "/" then .above else .directory [])

def read (files : Files) (path : String) : Except ReadFault String :=
  match files.find path with
  | .error fault => .error fault
  | .ok (.file bytes) => decodeText bytes
  | .ok .above | .ok (.directory _) => .error .isDirectory

end Files

/-- Also what the readers of arguments and of documents say in words of their own: the help, in full
or in short, and the causes for which a document is refused. -/
structure Surroundings where
  read : String → Except ReadFault String
  input : Except ReadFault String
  configHome : Option String
  home : Option String
  directory : String
  help : (full : Bool) → String := fun _ => ""
  causes : (document : String) → List String := fun _ => []

def Surroundings.ofFiles (files : Files) (input : ByteArray) (configHome : Option String) :
    Surroundings where
  read := files.read
  input := decodeText input
  configHome
  home := some "."
  directory := "."

end Lisplet
