import Runbook.Json.Token

/-!
A JSON text as far as it can be read. Its arrays and objects hold what came before the text broke
off and say how they end, so a reader meets the faults of the text and the faults of the shape in
the order in which they stand. A whole value is a source without faults.
-/
namespace Runbook.Json

inductive Closing where
  | closed
  | ended
  | trailingComma
  | endedAfterComma
  | missingComma
  | badName
deriving DecidableEq, Repr

inductive Source where
  | null
  | bool (b : Bool)
  | number (leaf : Leaf Number)
  | text (leaf : Leaf String)
  | array (items : List Source) (closing : Closing)
  | object (members : List (Leaf String × Source)) (closing : Closing)
  | brokenWord (isNull : Bool) (fault : TextFault)
  | absent (fault : TextFault)
deriving Inhabited

/-- A text that stands for one value: the value, and whether anything but blanks follows it. -/
structure Document where
  root : Source
  trailing : Bool

namespace Source

/-- An array or object that is still open, with what it holds so far in reverse. -/
inductive Frame where
  | array (items : List Source)
  | object (members : List (Leaf String × Source)) (name : Leaf String)

inductive Expect where
  | value
  | firstItem
  | nextItem
  | itemEnd
  | firstName
  | nextName
  | colon
  | memberEnd
deriving DecidableEq, Repr

def Frame.add (v : Source) : Frame → Frame
  | .array items => .array (v :: items)
  | .object members name => .object ((name, v) :: members) name

def Frame.close (closing : Closing) : Frame → Source
  | .array items => .array items.reverse closing
  | .object members _ => .object members.reverse closing

def Frame.atEnd : Frame → Expect
  | .array _ => .itemEnd
  | .object _ _ => .memberEnd

def breakOff (v : Source) (frames : List Frame) : Source :=
  frames.foldl (fun v frame => (frame.add v).close .ended) v

def breakOffIn (closing : Closing) : List Frame → Source
  | [] => .absent .endInValue
  | frame :: frames => breakOff (frame.close closing) frames

def unfit : Option Token → Source
  | none => .absent .endInValue
  | some (.brokenWord isNull fault) => .brokenWord isNull fault
  | some _ => .absent .expectedValue

def stop (expect : Expect) (frames : List Frame) (token : Option Token) : Source :=
  match expect, token with
  | .value, token => breakOff (unfit token) frames
  | .firstItem, none => breakOffIn .ended frames
  | .firstItem, token => breakOff (unfit token) frames
  | .nextItem, none => breakOffIn .endedAfterComma frames
  | .nextItem, some .closeArray => breakOffIn .trailingComma frames
  | .nextItem, token => breakOff (unfit token) frames
  | .itemEnd, none => breakOffIn .ended frames
  | .itemEnd, some _ => breakOffIn .missingComma frames
  | .firstName, none => breakOffIn .ended frames
  | .firstName, some _ => breakOffIn .badName frames
  | .nextName, none => breakOffIn .endedAfterComma frames
  | .nextName, some .closeObject => breakOffIn .trailingComma frames
  | .nextName, some _ => breakOffIn .badName frames
  | .colon, none => breakOff (.absent .endInObject) frames
  | .colon, some _ => breakOff (.absent .expectedColon) frames
  | .memberEnd, none => breakOffIn .ended frames
  | .memberEnd, some _ => breakOffIn .missingComma frames

/-- What one token does to the open frames: another thing is expected, a value is whole, or the
token does not fit. -/
inductive Move where
  | go (expect : Expect) (frames : List Frame)
  | whole (v : Source) (frames : List Frame)
  | stuck

def moveValue (frames : List Frame) : Token → Move
  | .null => .whole .null frames
  | .bool b => .whole (.bool b) frames
  | .number leaf => .whole (.number leaf) frames
  | .text leaf => .whole (.text leaf) frames
  | .openArray => .go .firstItem (.array [] :: frames)
  | .openObject => .go .firstName (.object [] (.good "") :: frames)
  | _ => .stuck

def moveName (frames : List Frame) : Token → Move
  | .text leaf =>
    match frames with
    | .object members _ :: rest => .go .colon (.object members leaf :: rest)
    | _ => .stuck
  | _ => .stuck

def moveClose : List Frame → Move
  | [] => .stuck
  | frame :: frames => .whole (frame.close .closed) frames

def move (expect : Expect) (frames : List Frame) (token : Token) : Move :=
  match expect, token with
  | .firstItem, .closeArray => moveClose frames
  | .itemEnd, .closeArray => moveClose frames
  | .firstName, .closeObject => moveClose frames
  | .memberEnd, .closeObject => moveClose frames
  | .itemEnd, .comma => .go .nextItem frames
  | .memberEnd, .comma => .go .nextName frames
  | .colon, .colon => .go .value frames
  | .value, token => moveValue frames token
  | .firstItem, token => moveValue frames token
  | .nextItem, token => moveValue frames token
  | .firstName, token => moveName frames token
  | .nextName, token => moveName frames token
  | _, _ => .stuck

def build (expect : Expect) (frames : List Frame) : List Token → Document
  | [] => ⟨stop expect frames none, false⟩
  | token :: tokens =>
    match move expect frames token with
    | .go expect frames => build expect frames tokens
    | .whole v [] => ⟨v, !tokens.isEmpty⟩
    | .whole v (frame :: frames) =>
      build frame.atEnd (frame.add v :: frames) tokens
    | .stuck => ⟨stop expect frames (some token), false⟩

end Source

def Document.ofText (s : String) : Document := Source.build .value [] (Token.lex s.toList)

namespace Source

mutual

def ofValue : Value → Source
  | .null => .null
  | .bool b => .bool b
  | .number n => .number (.good n)
  | .text s => .text (.good s)
  | .array items => .array (ofItems items) .closed
  | .object members => .object (ofMembers members) .closed

def ofItems : List Value → List Source
  | [] => []
  | v :: rest => ofValue v :: ofItems rest

def ofMembers : List (String × Value) → List (Leaf String × Source)
  | [] => []
  | (name, v) :: rest => (.good name, ofValue v) :: ofMembers rest

end

end Source

def Closing.readItems : Closing → Except Fault Unit
  | .closed => .ok ()
  | .ended => .error (.malformed .endInArray)
  | .trailingComma => .error (.malformed .trailingComma)
  | .endedAfterComma => .error (.malformed .endInValue)
  | _ => .error (.malformed .expectedArrayEnd)

def Closing.readMembers : Closing → Except Fault Unit
  | .closed => .ok ()
  | .ended => .error (.malformed .endInObject)
  | .trailingComma => .error (.malformed .trailingComma)
  | .endedAfterComma => .error (.malformed .endInValue)
  | .badName => .error (.malformed .nameNotText)
  | .missingComma => .error (.malformed .expectedObjectEnd)

def Closing.skipItems : Closing → Except Fault Unit
  | .trailingComma => .error (.malformed .expectedValue)
  | closing => closing.readItems

def Closing.skipMembers : Closing → Except Fault Unit
  | .trailingComma => .error (.malformed .nameNotText)
  | .endedAfterComma => .error (.malformed .endInObject)
  | closing => closing.readMembers

namespace Source

def depthLimit : Nat := 127

/-- Whether no further array or object may be read inside so many. Without a count there is no
limit. -/
def isTooDeep (depth : Option Nat) : Bool := depth.any fun d => depthLimit ≤ d

mutual

def skip : Source → Except Fault Unit
  | .null => .ok ()
  | .bool _ => .ok ()
  | .number leaf => leaf.skip
  | .text leaf => leaf.skip
  | .array items closing => do
    skipItems items
    closing.skipItems
  | .object members closing => do
    skipMembers members
    closing.skipMembers
  | .brokenWord _ fault => .error (.malformed fault)
  | .absent fault => .error (.malformed fault)

def skipItems : List Source → Except Fault Unit
  | [] => .ok ()
  | s :: rest => do
    s.skip
    skipItems rest

def skipMembers : List (Leaf String × Source) → Except Fault Unit
  | [] => .ok ()
  | (name, s) :: rest => do
    name.skip
    s.skip
    skipMembers rest

end

mutual

def value (depth : Option Nat) : Source → Except Fault Value
  | .null => .ok .null
  | .bool b => .ok (.bool b)
  | .number leaf => do return .number (← leaf.read)
  | .text leaf => do return .text (← leaf.read)
  | .array items closing => do
    if isTooDeep depth then throw (.malformed .tooDeep)
    let values ← valueItems (depth.map (· + 1)) items
    closing.readItems
    return .array values
  | .object members closing => do
    if isTooDeep depth then throw (.malformed .tooDeep)
    let values ← valueMembers (depth.map (· + 1)) members
    closing.readMembers
    return .object values
  | .brokenWord _ fault => .error (.malformed fault)
  | .absent fault => .error (.malformed fault)

def valueItems (depth : Option Nat) : List Source → Except Fault (List Value)
  | [] => .ok []
  | s :: rest => do
    let v ← s.value depth
    return v :: (← valueItems depth rest)

def valueMembers (depth : Option Nat) :
    List (Leaf String × Source) → Except Fault (List (String × Value))
  | [] => .ok []
  | (name, s) :: rest => do
    let name ← name.read
    let v ← s.value depth
    return (name, v) :: (← valueMembers depth rest)

end

end Source

def Value.ofText (s : String) : Except Fault Value := do
  let document := Document.ofText s
  let v ← document.root.value (some 0)
  if document.trailing then throw (.malformed .trailingCharacters)
  return v

end Runbook.Json
