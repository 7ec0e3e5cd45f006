import Runbook.Decimal.Shortest
import Runbook.Json.Value
import Runbook.Text.Numeral

/-!
JSON text of a value: on one line without blanks, or spread over lines with two blanks for each
level. Texts escape the quote, the backslash and the controls below the space, and every other
character stands for itself.
-/
namespace Runbook.Json

def escapeChar (c : Char) : List Char :=
  if c = '"' then ['\\', '"']
  else if c = '\\' then ['\\', '\\']
  else if c = '\n' then ['\\', 'n']
  else if c = '\r' then ['\\', 'r']
  else if c = '\t' then ['\\', 't']
  else if c = '\x08' then ['\\', 'b']
  else if c = '\x0c' then ['\\', 'f']
  else if c.toNat < 0x20 then
    ['\\', 'u', '0', '0', Nat.digitChar (c.toNat / 16), Nat.digitChar (c.toNat % 16)]
  else [c]

def textChars (s : String) : List Char := '"' :: s.toList.flatMap escapeChar ++ ['"']

def wholeChars (n : Int) : List Char :=
  if n < 0 then '-' :: Text.numeralChars n.natAbs else Text.numeralChars n.natAbs

def Number.chars : Number → List Char
  | .whole n => wholeChars n
  | .decimal x => Layout.data.text x

namespace Value

mutual

def compactChars : Value → List Char
  | .null => ['n', 'u', 'l', 'l']
  | .bool true => ['t', 'r', 'u', 'e']
  | .bool false => ['f', 'a', 'l', 's', 'e']
  | .number n => n.chars
  | .text s => textChars s
  | .array items => '[' :: compactItems false items ++ [']']
  | .object members => '\x7b' :: compactMembers false members ++ ['\x7d']

/-- The items with commas between them, and one before them when `comma` holds. -/
def compactItems (comma : Bool) : List Value → List Char
  | [] => []
  | v :: rest =>
    (if comma then [','] else []) ++ v.compactChars ++ compactItems true rest

def compactMembers (comma : Bool) : List (String × Value) → List Char
  | [] => []
  | (name, v) :: rest =>
    (if comma then [','] else []) ++ textChars name ++ ':' :: v.compactChars ++
      compactMembers true rest

end

def lineStart (level : Nat) : List Char := '\n' :: List.replicate (2 * level) ' '

mutual

def prettyChars (level : Nat) : Value → List Char
  | .array [] => ['[', ']']
  | .array (v :: rest) =>
    '[' :: prettyItems (level + 1) false (v :: rest) ++ lineStart level ++ [']']
  | .object [] => ['\x7b', '\x7d']
  | .object (m :: rest) =>
    '\x7b' :: prettyMembers (level + 1) false (m :: rest) ++ lineStart level ++ ['\x7d']
  | v => v.compactChars

def prettyItems (level : Nat) (comma : Bool) : List Value → List Char
  | [] => []
  | v :: rest =>
    (if comma then [','] else []) ++ lineStart level ++ v.prettyChars level ++
      prettyItems level true rest

def prettyMembers (level : Nat) (comma : Bool) : List (String × Value) → List Char
  | [] => []
  | (name, v) :: rest =>
    (if comma then [','] else []) ++ lineStart level ++ textChars name ++ ':' :: ' ' ::
      v.prettyChars level ++ prettyMembers level true rest

end

def compact (v : Value) : String := String.ofList v.compactChars

def pretty (v : Value) : String := String.ofList (v.prettyChars 0)

end Value

end Runbook.Json
