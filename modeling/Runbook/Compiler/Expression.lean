import Runbook.Decimal.Shortest
import Runbook.Text.Numeral
import Runbook.Workflow.Step

/-!
Expressions of the script language that fields of a template are filled with. Each one is
complete in itself: a text is quoted so that no character of it can end the quotes.
-/
namespace Runbook

inductive Expression where
  | none
  | truth (b : Bool)
  | natural (n : Nat)
  | decimal (x : Binary64)
  | text (s : String)
  | texts (items : List String)
  | secret (credential name : String)
  | policy (policy : Policy) (timeout : Option UInt32)
deriving DecidableEq, Repr

namespace Expression

def hexByte (n : Nat) : List Char := [Nat.digitChar (n / 16), Nat.digitChar (n % 16)]

def isControl (c : Char) : Bool := c.toNat < 0x20 || (0x7F ≤ c.toNat && c.toNat < 0xA0)

def escapeChar (c : Char) : List Char :=
  if c = '"' then ['\\', '"']
  else if c = '\\' then ['\\', '\\']
  else if c = '\n' then ['\\', 'n']
  else if c = '\r' then ['\\', 'r']
  else if c = '\t' then ['\\', 't']
  else if isControl c then '\\' :: 'x' :: hexByte c.toNat
  else [c]

def quote (s : String) : List Char := '"' :: s.toList.flatMap escapeChar ++ ['"']

def separated : List (List Char) → List Char
  | [] => []
  | [item] => item
  | item :: rest => item ++ ',' :: ' ' :: separated rest

def chars : Expression → List Char
  | none => "None".toList
  | truth true => "True".toList
  | truth false => "False".toList
  | natural n => Text.numeralChars n
  | decimal x => Layout.script.text x
  | text s => quote s
  | texts items => '[' :: separated (items.map quote) ++ [']']
  | secret credential name =>
    "ctx.secret(".toList ++ quote credential ++ ',' :: ' ' :: quote name ++ [')']
  | policy p timeout =>
    "retries=".toList ++ Text.numeralChars p.retryCount.toNat ++
      ", retry_interval=".toList ++ Text.numeralChars p.retryIntervalSeconds.toNat ++
      ", on_error=".toList ++ quote p.onError.name ++
      ", timeout=".toList ++ (match timeout with
        | some seconds => Text.numeralChars seconds.toNat
        | Option.none => "None".toList)

-- One equation a constructor. Lean makes none of its own, as it tries to compute decimals for it.
@[simp] theorem chars_none : none.chars = "None".toList := rfl

@[simp] theorem chars_natural (n : Nat) : (natural n).chars = Text.numeralChars n := rfl

@[simp] theorem chars_decimal (x : Binary64) : (decimal x).chars = Layout.script.text x := rfl

@[simp] theorem chars_text (s : String) : (text s).chars = quote s := rfl

@[simp] theorem chars_texts (items : List String) :
    (texts items).chars = '[' :: separated (items.map quote) ++ [']'] := rfl

@[simp] theorem chars_secret (credential name : String) :
    (secret credential name).chars =
      "ctx.secret(".toList ++ quote credential ++ ',' :: ' ' :: quote name ++ [')'] := rfl

@[simp] theorem chars_policy (p : Policy) (timeout : Option UInt32) :
    (policy p timeout).chars =
      "retries=".toList ++ Text.numeralChars p.retryCount.toNat ++
        ", retry_interval=".toList ++ Text.numeralChars p.retryIntervalSeconds.toNat ++
        ", on_error=".toList ++ quote p.onError.name ++
        ", timeout=".toList ++
        ((timeout.map fun seconds => Text.numeralChars seconds.toNat).getD "None".toList) := by
  cases timeout <;> rfl

def render (e : Expression) : String := String.ofList e.chars

def ofText? (s : Option String) : Expression := (s.map text).getD none

end Expression

end Runbook
