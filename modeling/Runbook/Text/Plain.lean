/-!
Texts without what steers a terminal. Control sequences begin with the escape character and are
left out whole, and so are single control characters that are no blanks. A sequence that never
ends takes the rest of the text with it.
-/
namespace Runbook.Text

/-- The control sequence that a place in a text lies in. A `selection` picks a character set, a
`control` sequence has parameters, a `device` sequence has them before its payload, and a `command`
is meant for the system around the terminal. -/
inductive Sequence where
  | none
  | escape
  | selection
  | control
  | device
  | payload
  | command
deriving DecidableEq, Repr

def isControlBlank (c : Char) : Bool :=
  c = '\t' || c = '\n' || c = '\r' || c.toNat = 0x0C

def isPlain (c : Char) : Bool := 0x20 ≤ c.toNat && c.toNat ≠ 0x7F || isControlBlank c

def inRange (low high : Nat) (c : Char) : Bool := low ≤ c.toNat && c.toNat ≤ high

def hasTerminator (c : Char) : Bool := (String.singleton c).toUTF8.toList.contains 0x9C

def Sequence.introduced (c : Char) : Sequence :=
  if inRange 0x20 0x2F c then selection
  else if c = '[' then control
  else if c = ']' then command
  else if c = 'P' then device
  else if c = 'X' || c = '^' || c = '_' then payload
  else if inRange 0x30 0x7E c then none
  else escape

/-- The sequence that a text is in behind a character. An escape character begins a sequence
anywhere, and two control characters break off any. -/
def Sequence.after (s : Sequence) (c : Char) : Sequence :=
  if c.toNat = 0x1B then escape
  else if c.toNat = 0x18 || c.toNat = 0x1A then none
  else
    match s with
    | none => none
    | escape => introduced c
    | selection => if inRange 0x30 0x7E c then none else selection
    | control => if inRange 0x40 0x7E c then none else control
    | device => if inRange 0x40 0x7E c then payload else device
    | payload => if hasTerminator c then none else payload
    | command => if c.toNat = 0x07 then none else command

/-- Whether a character inside a sequence is shown. Blanks interrupt the sequences that are not
made of text. -/
def Sequence.shows (s : Sequence) (c : Char) : Bool :=
  match s with
  | none => isPlain c
  | escape | selection | control => isControlBlank c
  | device | payload | command => false

/-- The plain characters of a text. Behind a shown one all are shown up to a control character.
There a sequence that was interrupted goes on, unless a character outside ASCII has ended it. -/
def plainChars (shown : Bool) (s : Sequence) : List Char → List Char
  | [] => []
  | c :: rest =>
    if shown && isPlain c then c :: plainChars true (if c.toNat < 0x80 then s else .none) rest
    else if !shown && s.shows c then c :: plainChars true (s.after c) rest
    else plainChars false (s.after c) rest

def plain (s : String) : String := String.ofList (plainChars false .none s.toList)

end Runbook.Text
