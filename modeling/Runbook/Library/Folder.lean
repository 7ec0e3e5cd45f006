import Runbook.Catalog
import Runbook.Text.Bytes

/-!
A folder of files by name. Reading and writing take a name and fail for a reason. A folder inside
the folder is an entry too, and what is in it is named by both names with a slash between them.
-/
namespace Runbook

inductive Entry where
  | text (content : String)
  | bytes (content : List UInt8)
  | folder
deriving DecidableEq, Repr

namespace Entry

def ofBytes (content : List UInt8) : Entry :=
  match String.fromUTF8? ⟨content.toArray⟩ with
  | some s => text s
  | none => bytes content

def shown : Entry → Option String
  | text content => some content
  | bytes content => some (Text.ofBytes content)
  | folder => none

end Entry

inductive FileError where
  | notFound
  | notFolder
  | isFolder
  | alreadyThere
  | nameTooLong
  | nulInName
  | notText
  | other (reason : String)
deriving DecidableEq, Repr

def FileError.message : FileError → String
  | notFound => "No such file or directory (os error 2)"
  | notFolder => "Not a directory (os error 20)"
  | isFolder => "Is a directory (os error 21)"
  | alreadyThere => "File exists (os error 17)"
  | nameTooLong => "File name too long (os error 36)"
  | nulInName => "file name contained an unexpected NUL byte"
  | notText => "stream did not contain valid UTF-8"
  | other reason => reason

abbrev Folder := Catalog Entry

namespace Folder

def nameLimit : Nat := 255

def checkName (name : String) : Except FileError Unit :=
  if name.toList.any fun c => c.toNat = 0 then .error .nulInName
  else if nameLimit < name.utf8ByteSize then .error .nameTooLong
  else .ok ()

def textAt (f : Folder) (place : String) : Except FileError String :=
  match f.get? place with
  | none => .error .notFound
  | some (.text content) => .ok content
  | some (.bytes _) => .error .notText
  | some .folder => .error .isFolder

def putAt (f : Folder) (place : String) (file : Entry) : Except FileError Folder :=
  match f.get? place with
  | some .folder => .error .isFolder
  | _ => .ok (f.insert place file)

def read (f : Folder) (name : String) : Except FileError String := do
  checkName name
  f.textAt name

def write (f : Folder) (name content : String) : Except FileError Folder := do
  checkName name
  f.putAt name (.text content)

/-- The folder without a file. A file that is not there may be taken out too. -/
def remove (f : Folder) (name : String) : Except FileError Folder :=
  match f.get? name with
  | none => .ok f
  | some .folder => .error .isFolder
  | some _ => .ok (f.erase name)

def ownEntries (f : Folder) : List (String × Entry) :=
  f.entries.filter fun e => !e.1.toList.contains '/'

end Folder

end Runbook
