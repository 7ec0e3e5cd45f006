import Runbook.Decimal.Binary64

/-!
JSON values. A number is a whole number of one machine word or a binary64 number, and the two
stay apart: `1` is not `1.0`. An object keeps its members in the order it lists them. Sorting an
object orders its members by name, and of several members of one name the last is kept.
-/
namespace Runbook.Json

inductive Number where
  | whole (n : Int)
  | decimal (x : Binary64)
deriving DecidableEq, Repr

inductive Value where
  | null
  | bool (b : Bool)
  | number (n : Number)
  | text (s : String)
  | array (items : List Value)
  | object (members : List (String × Value))
deriving Inhabited

namespace Value

def ofNat (n : Nat) : Value := .number (.whole n)

def ofStrings (ss : List String) : Value := .array (ss.map .text)

/-- The last member of a name. -/
def member? (name : String) (members : List (String × Value)) : Option Value :=
  (members.reverse.find? fun m => m.1 = name).map Prod.snd

def insertMember (name : String) (value : Value) :
    List (String × Value) → List (String × Value)
  | [] => [(name, value)]
  | m :: rest =>
    if name < m.1 then (name, value) :: m :: rest
    else if name = m.1 then (name, value) :: rest
    else m :: insertMember name value rest

/-- The members sorted by name. Of several members of one name the last is kept. -/
def sortMembers (members : List (String × Value)) : List (String × Value) :=
  members.foldl (fun sorted m => insertMember m.1 m.2 sorted) []

mutual

def sorted : Value → Value
  | .array items => .array (sortedItems items)
  | .object members => .object (sortMembers (sortedMembers members))
  | v => v

def sortedItems : List Value → List Value
  | [] => []
  | v :: rest => v.sorted :: sortedItems rest

def sortedMembers : List (String × Value) → List (String × Value)
  | [] => []
  | (name, v) :: rest => (name, v.sorted) :: sortedMembers rest

end

def isNull : Value → Bool
  | .null => true
  | _ => false

def isEmptyArray : Value → Bool
  | .array [] => true
  | _ => false

end Value

end Runbook.Json
