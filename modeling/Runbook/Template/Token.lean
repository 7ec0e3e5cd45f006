import Runbook.Text.Blank

/-!
Tokens in a text. A token is a name between double braces, with blanks around the name if any; a
name is a letter or an underscore, then letters, digits and underscores, all of ASCII. A text
falls into characters and tokens from left to right, and substitution looks at it once: what
takes the place of a token is not looked at again.
-/
namespace Runbook.Template

def isNameStart (c : Char) : Bool := c.isAlpha || c = '_'

def isNameChar (c : Char) : Bool := c.isAlphanum || c = '_'

/-- The name of the token at the head of a text, and the text after the token. -/
def token? : List Char → Option (List Char × List Char)
  | '\x7b' :: '\x7b' :: rest =>
    let body := rest.dropWhile Text.isBlank
    let name := body.takeWhile isNameChar
    let after := (body.dropWhile isNameChar).dropWhile Text.isBlank
    if name.head?.any isNameStart then
      match after with
      | '\x7d' :: '\x7d' :: rest => some (name, rest)
      | _ => none
    else none
  | _ => none

theorem token?_length {s name rest : List Char} (h : token? s = some (name, rest)) :
    rest.length < s.length := by
  unfold token? at h
  split at h
  · rename_i tail
    simp only at h
    split at h
    · split at h
      · rename_i after heq
        simp only [Option.some.injEq, Prod.mk.injEq] at h
        obtain ⟨_, rfl⟩ := h
        have h1 := (List.dropWhile_sublist (l := tail) Text.isBlank).length_le
        have h2 := (List.dropWhile_sublist (l := tail.dropWhile Text.isBlank) isNameChar).length_le
        have h3 := (List.dropWhile_sublist
          (l := (tail.dropWhile Text.isBlank).dropWhile isNameChar) Text.isBlank).length_le
        rw [heq] at h3
        simp only [List.length_cons] at h3 ⊢
        omega
      · simp at h
    · simp at h
  · simp at h

/-- A character outside every token, or a token as it was written and the name in it. -/
inductive Piece where
  | plain (c : Char)
  | token (written name : List Char)
deriving DecidableEq, Repr

/-- The pieces of a text. A token is taken wherever one starts outside the tokens before it. -/
def pieces (s : List Char) : List Piece :=
  match s with
  | [] => []
  | c :: rest =>
    match _h : token? (c :: rest) with
    | some (name, after) =>
      .token ((c :: rest).take ((c :: rest).length - after.length)) name :: pieces after
    | none => .plain c :: pieces rest
termination_by s.length
decreasing_by
  · exact token?_length _h
  · simp

def Piece.chars (value : String → String) : Piece → List Char
  | plain c => [c]
  | token _ name => (value (String.ofList name)).toList

def Piece.name? : Piece → Option String
  | plain _ => none
  | token _ name => some (String.ofList name)

def substitute (value : String → String) (s : String) : String :=
  String.ofList ((pieces s.toList).flatMap (Piece.chars value))

def names (s : String) : List String := (pieces s.toList).filterMap Piece.name?

end Runbook.Template
