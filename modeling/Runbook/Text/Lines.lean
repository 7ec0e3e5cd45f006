/-!
Texts as lines. A line ends at a line feed, and a carriage return just before the line feed
belongs to the ending; a text that closes with a line feed has no empty line after it.
-/
namespace Runbook.Text

/-- The line that a reversed run of characters spells, without a closing carriage return. -/
def finishLine : List Char → List Char
  | '\r' :: rest => rest.reverse
  | line => line.reverse

/-- The lines of a text, where `line` holds the characters of the current line in reverse. -/
def splitLines (line : List Char) : List Char → List (List Char)
  | [] => if line.isEmpty then [] else [line.reverse]
  | '\n' :: rest => finishLine line :: splitLines [] rest
  | c :: rest => splitLines (c :: line) rest

def lines (s : String) : List String := (splitLines [] s.toList).map String.ofList

/-- A line one level deeper. An empty line stays empty. -/
def indentLine (indent line : String) : String := if line = "" then "" else indent ++ line

end Runbook.Text
