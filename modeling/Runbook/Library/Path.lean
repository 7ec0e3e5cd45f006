import Runbook.Library.Folder

/-!
Paths from a folder: names with slashes between them. A path is walked name by name through the
folders on it, may go round by them and back, and may lead above the folder it begins in or, when
it begins with a slash, away from the root. Out there nothing is known but what was put there.
-/
namespace Runbook

/-- Where a walk has come to: the names of the folders on the way, innermost first. Above the
first folder the names are `..`, and the root has an empty name. -/
abbrev Place := List String

namespace Place

def key (place : Place) : String := "/".intercalate place.reverse

/-- The folder around a place. The root is around itself. -/
def above (place : Place) : Place :=
  match place with
  | [] => [".."]
  | name :: around =>
    if name = ".." then ".." :: place
    else if name = "" then place
    else around

def start (parts : List String) : Place := if parts.head? = some "" then [""] else []

end Place

/-- What a path ends in: a folder by its form, or a name in a place. -/
inductive Ending where
  | folder
  | name (place : Place) (name : String)
deriving DecidableEq, Repr

namespace Folder

def pathLimit : Nat := 4096

def checkPath (path : String) : Except FileError Unit :=
  if path = "" then .error .notFound
  else if path.toList.any fun c => c.toNat = 0 then .error .nulInName
  else if pathLimit ≤ path.utf8ByteSize then .error .nameTooLong
  else .ok ()

def staysHere (part : String) : Bool := part = "" ∨ part = "."

def isEntryName (part : String) : Bool := !staysHere part && part ≠ ".."

/-- A step of a walk. Only a folder can be entered. -/
def enter (f : Folder) (place : Place) (part : String) : Except FileError Place :=
  if staysHere part then .ok place
  else if part = ".." then .ok place.above
  else do
    checkName part
    match f.get? (Place.key (part :: place)) with
    | none => throw .notFound
    | some .folder => return part :: place
    | some _ => throw .notFolder

def walk (f : Folder) (parts : List String) : Except FileError Ending := do
  let place ← parts.dropLast.foldlM f.enter (Place.start parts)
  let last := parts.getLastD ""
  return if isEntryName last then .name place last else .folder

def readPath (f : Folder) (path : String) : Except FileError String := do
  checkPath path
  match ← f.walk (path.splitOn "/") with
  | .folder => throw .isFolder
  | .name place name =>
    checkName name
    f.textAt (Place.key (name :: place))

def partsKept (path : String) : List String :=
  ((path.splitOn "/").reverse.dropWhile fun part => part = "").reverse

/-- The folder with a file at a path. A slash behind the name asks for a folder, even where there
is none. -/
def putPath (f : Folder) (path : String) (file : Entry) : Except FileError Folder := do
  checkPath path
  match ← f.walk (partsKept path) with
  | .folder => throw .isFolder
  | .name place name =>
    if (path.splitOn "/").getLast? = some "" then throw .isFolder
    checkName name
    f.putAt (Place.key (name :: place)) file

def writePath (f : Folder) (path content : String) : Except FileError Folder :=
  f.putPath path (.text content)

/-- The folder with a folder at the end of a walk and all that are missing on the way, as far as
they can be made. -/
def makeFolders (f : Folder) (place : Place) : List String → Folder × Except FileError Unit
  | [] => (f, .ok ())
  | part :: rest =>
    match f.enter place part with
    | .ok place => makeFolders f place rest
    | .error .notFound =>
      makeFolders (f.insert (Place.key (part :: place)) .folder) (part :: place) rest
    | .error .notFolder => (f, .error (if rest.isEmpty then .alreadyThere else .notFolder))
    | .error e => (f, .error e)

/-- The folder with an entry at a path and all folders on the way to it, as far as they can be
made. A folder with a dot behind it is on the way to nothing and has to be there. -/
def install (f : Folder) (path : String) (entry : Entry) : Folder × Except FileError Unit :=
  match checkPath path with
  | .error e => (f, .error e)
  | .ok () =>
    let parts := path.splitOn "/"
    let names := parts.filter fun part => !staysHere part
    let whole := entry = .folder ∧ (partsKept path).getLast? ≠ some "."
    match f.makeFolders (Place.start parts) (if whole then names else names.dropLast) with
    | (f, .error e) => (f, .error e)
    | (f, .ok ()) =>
      if entry = .folder then (f, (f.walk (parts ++ ["."])).map fun _ => ())
      else
        match f.putPath path entry with
        | .error e => (f, .error e)
        | .ok f => (f, .ok ())

end Folder

end Runbook
