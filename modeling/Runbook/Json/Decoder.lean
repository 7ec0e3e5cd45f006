import Runbook.Json.Source

/-!
Readers of shapes. A decoder is given a source and the medium it comes from: a text, a whole
value, or the buffered content of a value whose shape was decided by one of its members. The media
agree on what is well shaped, but for the fixed names, and differ in some faults.
-/
namespace Runbook.Json

inductive Medium where
  | text
  | value
  | buffer
deriving DecidableEq, Repr

/-- Where a source stands: its medium and the count of arrays and objects around it. -/
structure Setting where
  medium : Medium
  depth : Nat
deriving DecidableEq, Repr

/-- The setting inside an array or object. A text may not nest them too deep. -/
def Setting.enter (setting : Setting) : Except Fault Setting :=
  if setting.medium = .text ∧ Source.depthLimit ≤ setting.depth then
    .error (.malformed .tooDeep)
  else .ok ⟨setting.medium, setting.depth + 1⟩

abbrev Decoder (α : Type) := Setting → Source → Except Fault α

def Source.found : Source → Except Fault Found
  | .null => .ok .null
  | .bool b => .ok (.bool b)
  | .number leaf => do return Found.ofNumber (← leaf.read)
  | .text leaf => do return .text (← leaf.read)
  | .array _ _ => .ok .array
  | .object _ _ => .ok .object
  | .brokenWord _ fault => .error (.malformed fault)
  | .absent fault => .error (.malformed fault)

def wrongType {α : Type} (expected : String) (s : Source) : Except Fault α := do
  throw (.wrongType (← s.found) expected)

namespace Decoder

variable {α β : Type}

def text : Decoder String
  | _, .text leaf => leaf.read
  | _, s => wrongType "a string" s

def bool : Decoder Bool
  | _, .bool b => .ok b
  | _, s => wrongType "a boolean" s

def natural (expected : String) (largest : Nat) : Decoder Nat
  | _, .number leaf => do
    match ← leaf.read with
    | .whole n =>
      if 0 ≤ n ∧ n ≤ largest then return n.toNat else throw (.wrongValue (.whole n) expected)
    | .decimal x => throw (.wrongType (.decimal x) expected)
  | _, s => wrongType expected s

def binary64 : Decoder Binary64
  | _, .number leaf => do
    match ← leaf.read with
    | .whole n => return Binary64.ofInt n
    | .decimal x => return x
  | _, s => wrongType "f64" s

/-- A value that may be null. A word that begins as null is read as one. -/
def optional (d : Decoder α) : Decoder (Option α)
  | _, .null => .ok none
  | _, .brokenWord true fault => .error (.malformed fault)
  | setting, s => some <$> d setting s

def list (d : Decoder α) : Decoder (List α)
  | setting, .array items closing => do
    let inner ← setting.enter
    let values ← items.mapM (d inner)
    closing.readItems
    return values
  | _, s => wrongType "a sequence" s

def members (d : Decoder α) : Decoder (List (String × α))
  | setting, .object members closing => do
    let inner ← setting.enter
    let values ← members.mapM fun m => do
      let name ← m.1.read
      return (name, ← d inner m.2)
    closing.readMembers
    return values
  | _, s => wrongType "a map" s

/-- The item at a place, or none when the array has closed before it. -/
def itemAt (items : List Source) (closing : Closing) (i : Nat) :
    Except Fault (Option Source) :=
  match items[i]? with
  | some s => .ok (some s)
  | none => do
    closing.readItems
    return none

def elementCount (n : Nat) : String :=
  Text.numeral n ++ (if n = 1 then " element" else " elements")

def endOfItems (medium : Medium) (used : Nat) (items : List Source) (closing : Closing) :
    Except Fault Unit :=
  match medium with
  | .text =>
    if used < items.length then .error (.malformed .trailingCharacters)
    else
      match closing with
      | .closed => .ok ()
      | .ended => .error (.malformed .endInArray)
      | .trailingComma => .error (.malformed .trailingComma)
      | _ => .error (.malformed .trailingCharacters)
  | .value =>
    if used < items.length then .error (.wrongLength items.length "fewer elements in array")
    else .ok ()
  | .buffer =>
    if used < items.length then
      .error (.wrongLength items.length (elementCount used ++ " in sequence"))
    else .ok ()

def pair (d : Decoder α) (e : Decoder β) : Decoder (α × β)
  | setting, .array items closing => do
    let inner ← setting.enter
    let some first ← itemAt items closing 0 | throw (.wrongLength 0 "a tuple of size 2")
    let a ← d inner first
    let some second ← itemAt items closing 1 | throw (.wrongLength 1 "a tuple of size 2")
    let b ← e inner second
    endOfItems setting.medium 2 items closing
    return (a, b)
  | _, s => wrongType "a tuple of size 2" s

def lookup (names : List (String × α)) (name : String) : Except Fault α :=
  match names.find? fun n => n.1 = name with
  | some n => .ok n.2
  | none => .error (.unknownVariant name (names.map Prod.fst))

def unit : Source → Except Fault Unit
  | .null => .ok ()
  | s => wrongType "unit" s

/-- One of a list of names in a text, or an object whose only member has such a name and is
null. -/
def nameInText (names : List (String × α)) (setting : Setting) : Source → Except Fault α
  | .text leaf => do lookup names (← leaf.read)
  | .object [] closing => do
    let _ ← setting.enter
    match closing with
    | .ended => throw (.malformed .endInObject)
    | .badName => throw (.malformed .nameNotText)
    | _ => throw (.malformed .expectedValue)
  | .object (m :: rest) closing => do
    let _ ← setting.enter
    let a ← lookup names (← m.1.read)
    unit m.2
    if rest.isEmpty ∧ closing = .closed then return a
    else if rest.isEmpty ∧ closing = .ended then throw (.malformed .endInObject)
    else throw (.malformed .expectedValue)
  | .absent fault => .error (.malformed fault)
  | _ => .error (.malformed .expectedValue)

def nameInValue (names : List (String × α)) : Source → Except Fault α
  | .text leaf => do lookup names (← leaf.read)
  | .object [m] _ => do
    let a ← lookup names (← m.1.read)
    unit m.2
    return a
  | .object _ _ => .error (.wrongValue .object "map with a single key")
  | s => wrongType "string or map" s

def oneOfNames (names : List (String × α)) : Decoder α
  | setting, s =>
    match setting.medium with
    | .text => nameInText names setting s
    | _ => nameInValue names s

/-- Reads a whole text: the first fault wins, and nothing may follow the value. -/
def ofText (d : Decoder α) (s : String) : Except Fault α := do
  let document := Document.ofText s
  let a ← d ⟨.text, 0⟩ document.root
  if document.trailing then throw (.malformed .trailingCharacters)
  return a

/-- Reads a value whose members are first sorted by name. -/
def ofValue (d : Decoder α) (v : Value) : Except Fault α :=
  d ⟨.value, 0⟩ (Source.ofValue v.sorted)

end Decoder

end Runbook.Json
