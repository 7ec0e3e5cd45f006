import Runbook.Library.Saved

/-!
A shelf of saved runbooks by id. A shelf may keep a folder with one file for each runbook, named
after its id: a runbook is written before it is put on the shelf and its file is taken out before
it leaves. A change that fails leaves a shelf too, which is the one that it began with. What others
put into the folder is found by loading.
-/
namespace Runbook

structure Shelf where
  saved : Catalog Saved := .empty
  folder : Option Folder
deriving DecidableEq, Repr

namespace Shelf

def inMemory : Shelf := { folder := none }

def ofFolder (folder : Folder) : Shelf := { folder := some folder }

def ending : String := ".json"

/-- Whether the files of runbooks are named so. The ending alone is no such name. -/
def isFileName (name : String) : Bool :=
  ending.toList.isSuffixOf name.toList && name ≠ ending

def isUsable (id : String) : Bool :=
  !id.isEmpty && !id.toList.any (fun c => c = '/' || c = '\\') && id.toList.head? ≠ some '.'

def fileName (id : String) : Except StorageError String :=
  if isUsable id then .ok (id ++ ending) else .error (.unusableId id)

def change (id : String) (act : Folder → String → Except FileError Folder) :
    EStateM StorageError Shelf Unit := fun s =>
  match s.folder with
  | none => .ok () s
  | some f =>
    match fileName id with
    | .error e => .error e s
    | .ok name =>
      match act f name with
      | .error e => .error (.file e) s
      | .ok f => .ok () { s with folder := some f }

def insert (w : Saved) : EStateM StorageError Shelf Unit := do
  change w.id fun f name => f.write name (Saved.format.pretty w)
  modify fun s => { s with saved := s.saved.insert w.id w }

def remove (id : String) : EStateM StorageError Shelf (Option Saved) := do
  change id Folder.remove
  modifyGet fun s => (s.saved.get? id, { s with saved := s.saved.erase id })

/-- The runbook in a file, if the file is named and written as one. -/
def inFile? (e : String × Entry) : Option Saved :=
  match e.2 with
  | .text content => if isFileName e.1 then (Saved.format.ofText content).toOption else none
  | _ => none

def inFolder (f : Folder) : List Saved := f.ownEntries.filterMap inFile?

/-- Puts every runbook of the folder on the shelf, and gives their count. -/
def load (s : Shelf) : Nat × Shelf :=
  match s.folder with
  | none => (0, s)
  | some f =>
    let found := inFolder f
    (found.length, { s with saved := found.foldl (fun c w => c.insert w.id w) s.saved })

def reopen (s : Shelf) : Shelf := { folder := s.folder }

def get? (s : Shelf) (id : String) : Option Saved := s.saved.get? id

def list (s : Shelf) : List Summary := s.saved.values.map Saved.summary

def contains (s : Shelf) (id : String) : Bool := s.saved.contains id

def size (s : Shelf) : Nat := s.saved.size

end Shelf

end Runbook
