import Runbook.Json.Decoder

/-!
JSON forms of types: how a value is written and how it is read back. A record lists its fields
once for both directions. Reading starts at a blank record and fills in the fields that it meets;
a field that is required must be met, and unknown members are skipped. A tagged type names the
variant in one member and keeps the fields of the variant beside it.
-/
namespace Runbook.Json

structure Format (α : Type) where
  write : α → Value
  read : Decoder α

namespace Format

variable {α β : Type}

def text : Format String := ⟨.text, Decoder.text⟩

def bool : Format Bool := ⟨.bool, Decoder.bool⟩

def uint32 : Format UInt32 where
  write n := .ofNat n.toNat
  read setting s := do return UInt32.ofNat (← Decoder.natural "u32" (UInt32.size - 1) setting s)

def uint16 : Format UInt16 where
  write n := .ofNat n.toNat
  read setting s := do return UInt16.ofNat (← Decoder.natural "u16" (UInt16.size - 1) setting s)

/-- Counts and limits, read as whole numbers of sixty-four bits. -/
def count : Format Nat := ⟨.ofNat, Decoder.natural "usize" (UInt64.size - 1)⟩

def binary64 : Format Binary64 := ⟨fun x => .number (.decimal x), Decoder.binary64⟩

def optional (f : Format α) : Format (Option α) where
  write
    | none => .null
    | some a => f.write a
  read := Decoder.optional f.read

def list (f : Format α) : Format (List α) where
  write as := .array (as.map f.write)
  read := Decoder.list f.read

def pair (f : Format α) (g : Format β) : Format (α × β) where
  write p := .array [f.write p.1, g.write p.2]
  read := Decoder.pair f.read g.read

def map (f : Format α) (into : α → β) (of : β → α) : Format β where
  write b := f.write (of b)
  read setting s := into <$> f.read setting s

def names (all : List α) (name : α → String) : Format α where
  write a := .text (name a)
  read := Decoder.oneOfNames (all.map fun a => (name a, a))

def compact (f : Format α) (a : α) : String := (f.write a).compact

def pretty (f : Format α) (a : α) : String := (f.write a).pretty

def ofText (f : Format α) (s : String) : Except Fault α := Decoder.ofText f.read s

def ofValue (f : Format α) (v : Value) : Except Fault α := Decoder.ofValue f.read v

end Format

/-- A field of a record. Writing gives none when the field is left out, and reading gives the
record with the field filled in. -/
structure Field (α : Type) where
  name : String
  required : Bool
  write : α → Option Value
  read : Decoder (α → α)

namespace Field

variable {α β : Type}

def plain (required : Bool) (name : String) (f : Format β) (get : α → β) (set : β → α → α) :
    Field α where
  name := name
  required := required
  write a := some (f.write (get a))
  read setting s := set <$> f.read setting s

def needed (name : String) (f : Format β) (get : α → β) (set : β → α → α) : Field α :=
  plain true name f get set

/-- A field that keeps its blank value when it is not met. -/
def lenient (name : String) (f : Format β) (get : α → β) (set : β → α → α) : Field α :=
  plain false name f get set

/-- A field that is left out when it has no value. -/
def option (name : String) (f : Format β) (get : α → Option β) (set : Option β → α → α) :
    Field α where
  name := name
  required := false
  write a := (get a).map f.write
  read setting s := set <$> f.optional.read setting s

/-- A field that is left out when its list is empty. -/
def many (name : String) (f : Format β) (get : α → List β) (set : List β → α → α) :
    Field α where
  name := name
  required := false
  write a := if (get a).isEmpty then none else some (f.list.write (get a))
  read setting s := set <$> f.list.read setting s

end Field

/-- A type written as an object with one member for each field. `title` is its name in messages,
and `blank` gives the value of every field that is not met. -/
structure Record (α : Type) where
  title : String
  blank : α
  fields : List (Field α)

namespace Record

variable {α : Type}

def members (r : Record α) (a : α) : List (String × Value) :=
  r.fields.filterMap fun f => (f.write a).map fun v => (f.name, v)

/-- Fills in the fields among the members in the order in which they stand, and gives the names
of the fields it met. -/
def fill (fields : List (Field α)) (setting : Setting) (seen : List String) (a : α) :
    List (Leaf String × Source) → Except Fault (List String × α)
  | [] => .ok (seen, a)
  | (name, s) :: rest => do
    let name ← name.read
    match fields.find? fun f => f.name = name with
    | none =>
      s.skip
      fill fields setting seen a rest
    | some f =>
      if name ∈ seen then throw (.duplicateField name)
      let set ← f.read setting s
      fill fields setting (name :: seen) (set a) rest

def require (fields : List (Field α)) (seen : List String) : Except Fault Unit :=
  match fields.find? fun f => f.required && !seen.contains f.name with
  | some f => .error (.missingField f.name)
  | none => .ok ()

def size (r : Record α) : String := r.title ++ " with " ++ Decoder.elementCount r.fields.length

def fillItems (r : Record α) (setting : Setting) (items : List Source) (closing : Closing) :
    List (Field α) → Nat → α → Except Fault α
  | [], _, a => .ok a
  | f :: fields, i, a => do
    match ← Decoder.itemAt items closing i with
    | some s =>
      let set ← f.read setting s
      fillItems r setting items closing fields (i + 1) (set a)
    | none =>
      if f.required then throw (.wrongLength i r.size)
      fillItems r setting items closing fields (i + 1) a

/-- An object is read by names and an array by places. -/
def read (r : Record α) : Decoder α
  | setting, .object members closing => do
    let inner ← setting.enter
    let (seen, a) ← fill r.fields inner [] r.blank members
    closing.readMembers
    require r.fields seen
    return a
  | setting, .array items closing => do
    let inner ← setting.enter
    let a ← fillItems r inner items closing r.fields 0 r.blank
    Decoder.endOfItems setting.medium r.fields.length items closing
    return a
  | _, s => wrongType r.title s

def format (r : Record α) : Format α := ⟨fun a => .object (r.members a), r.read⟩

end Record

/-- One of several shapes of a type: its name, the members of a value of this shape, and the
reader of its buffered content. -/
structure Variant (α : Type) where
  name : String
  members : α → Option (List (String × Value))
  read : Decoder α

namespace Variant

variable {α β : Type}

/-- A variant without fields. It takes any object, and an array without items. -/
def bare (name : String) (a : α) (is : α → Bool) : Variant α where
  name := name
  members b := if is b then some [] else none
  read
    | setting, .array items closing => do
      Decoder.endOfItems setting.medium 0 items closing
      return a
    | _, _ => .ok a

def record (name : String) (r : Record β) (wrap : β → α) (unwrap : α → Option β) :
    Variant α where
  name := name
  members a := (unwrap a).map r.members
  read setting s := wrap <$> r.read setting s

end Variant

structure Tagged (α : Type) where
  tag : String
  title : String
  variants : List (Variant α)

namespace Tagged

variable {α : Type}

def members (t : Tagged α) (a : α) : List (String × Value) :=
  (t.variants.findSome? fun v =>
    (v.members a).map fun ms => (t.tag, Value.text v.name) :: ms).getD []

/-- The variant that a tag names. In a buffer its place in the list may stand for its name. -/
def readTag (t : Tagged α) (setting : Setting) : Source → Except Fault (Variant α)
  | .text leaf => do
    Decoder.lookup (t.variants.map fun v => (v.name, v)) (← leaf.read)
  | .number leaf => do
    let n ← leaf.read
    match setting.medium, n with
    | .buffer, .whole (Int.ofNat i) =>
      match t.variants[i]? with
      | some v => return v
      | none =>
        throw (.wrongValue (.whole i) ("variant index 0 <= i < " ++
          Text.numeral t.variants.length))
    | _, n => throw (.wrongType (Found.ofNumber n) "variant identifier")
  | s => wrongType "variant identifier" s

/-- The depth at which a buffered value is read. Only a text has a limit. -/
def valueDepth (setting : Setting) : Option Nat :=
  if setting.medium = .text then some setting.depth else none

def split (t : Tagged α) (setting : Setting) (found : Option (Variant α)) :
    List (Leaf String × Source) →
      Except Fault (Option (Variant α) × List (String × Value))
  | [] => .ok (found, [])
  | (name, s) :: rest => do
    let name ← name.read
    if name = t.tag then
      if found.isSome then throw (.duplicateField t.tag)
      let v ← t.readTag setting s
      split t setting (some v) rest
    else
      let v ← s.value (valueDepth setting)
      let (found, buffered) ← split t setting found rest
      return (found, (name, v) :: buffered)

def buffer : Setting := ⟨.buffer, 0⟩

def readMembers (t : Tagged α) (setting : Setting) (members : List (Leaf String × Source))
    (closing : Closing) : Except Fault α := do
  let (found, buffered) ← t.split setting none members
  closing.readMembers
  match found with
  | none => throw (.missingField t.tag)
  | some v => v.read buffer (Source.ofValue (.object buffered))

def read (t : Tagged α) : Decoder α
  | setting, .object members closing => do
    let inner ← setting.enter
    t.readMembers inner members closing
  | setting, .array items closing => do
    let inner ← setting.enter
    match ← Decoder.itemAt items closing 0 with
    | none => throw (.missingField t.tag)
    | some s =>
      let v ← t.readTag inner s
      let rest ← Source.valueItems (valueDepth inner) (items.drop 1)
      closing.readItems
      v.read buffer (Source.ofValue (.array rest))
  | _, s => wrongType t.title s

def format (t : Tagged α) : Format α := ⟨fun a => .object (t.members a), t.read⟩

end Tagged

end Runbook.Json
