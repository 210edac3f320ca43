namespace Lox

inductive Entry where
  | file (bytes : List UInt8)
  | folder (entries : List (String × Entry))

abbrev Folder := List (String × Entry)

inductive Unreadable where
  | missing
  /-- The path goes on where a file is. -/
  | notFolder
  /-- The path ends at a folder. -/
  | folder
  | nameTooLong
  | notPermitted
  | other (cause : String)
  deriving DecidableEq, Repr

def Unreadable.cause : Unreadable → String
  | missing => "No such file or directory (os error 2)"
  | notFolder => "Not a directory (os error 20)"
  | folder => "Is a directory (os error 21)"
  | nameTooLong => "File name too long (os error 36)"
  | notPermitted => "Permission denied (os error 13)"
  | other cause => cause

def Unreadable.action : Unreadable → String
  | folder => "read"
  | _ => "open"

def maxNameSize : Nat := 255

def maxPathSize : Nat := 4095

/-- Follows the names of a path from the folder `here`. The folders around it are given from the
    nearest to the outermost, which has nothing above it. -/
def Folder.follow (here : Folder) (around : List Folder) :
    List String → Except Unreadable (List UInt8)
  | [] => .error .folder
  | name :: rest =>
    if name = "" ∨ name = "." then follow here around rest
    else if name = ".." then
      match around with
      | [] => follow here [] rest
      | outer :: around => follow outer around rest
    else if maxNameSize < name.utf8ByteSize then .error .nameTooLong
    else
      match here.lookup name with
      | none => .error .missing
      | some (.file bytes) => if rest.isEmpty then .ok bytes else .error .notFolder
      | some (.folder inner) => follow inner (here :: around) rest

/-- Where a program runs: the folder, and those around it from the nearest to the outermost. -/
structure Place where
  here : Folder
  around : List Folder

namespace Place

def root (place : Place) : Folder := (place.around.getLast?).getD place.here

def put (place : Place) (name : String) (bytes : List UInt8) : Place :=
  { place with here := (name, .file bytes) :: place.here }

/-- The bytes of the file that a path leads to. A path that starts with a slash starts at the
    outermost folder. -/
def read (place : Place) (path : String) : Except Unreadable (List UInt8) :=
  if maxPathSize < path.utf8ByteSize then .error .nameTooLong
  else
    let names := path.splitOn "/"
    if path.front == '/' then place.root.follow [] names
    else place.here.follow place.around names

end Place
end Lox
