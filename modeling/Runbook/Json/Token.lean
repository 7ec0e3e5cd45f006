import Runbook.Json.Fault

/-!
A JSON text as tokens. A number or a text is lexed for two kinds of reader: one that wants its
value, and one that skips it and only needs to know where it ends. Some of them can be skipped
and not read, such as a number out of range; after one that can not even be skipped the text
yields no more tokens.
-/
namespace Runbook.Json

inductive Leaf (α : Type) where
  | good (a : α)
  | flawed (whenRead : TextFault)
  | broken (whenRead whenSkipped : TextFault)
deriving DecidableEq, Repr

namespace Leaf

variable {α : Type}

def read : Leaf α → Except Fault α
  | good a => .ok a
  | flawed fault => .error (.malformed fault)
  | broken fault _ => .error (.malformed fault)

def skip : Leaf α → Except Fault Unit
  | broken _ fault => .error (.malformed fault)
  | _ => .ok ()

end Leaf

/-- A token of a text. A broken word is one that began well, and it says whether it began as
null. -/
inductive Token where
  | openArray
  | closeArray
  | openObject
  | closeObject
  | comma
  | colon
  | null
  | bool (b : Bool)
  | number (leaf : Leaf Number)
  | text (leaf : Leaf String)
  | brokenWord (isNull : Bool) (fault : TextFault)
  | stray
deriving DecidableEq, Repr

namespace Token

def digitsValue (digits : List Char) : Nat :=
  digits.foldl (fun n c => 10 * n + (c.toNat - '0'.toNat)) 0

/-- The count of digits of a decimal that are looked at. No number half way between two binary64
numbers has more. -/
def digitLimit : Nat := 768

/-- The decimal that digits before and after a point stand for: a whole number, and the power of
ten by which it is multiplied. Digits past the limit, but for zeros at the end behind the point,
are taken together for one that is not zero, also when all of them are zeros before the point. -/
def decimalOf (digits fraction : List Char) : Nat × Int :=
  let fraction := (fraction.reverse.dropWhile (· = '0')).reverse
  let all := (digits ++ fraction).dropWhile (· = '0')
  if digitLimit < all.length then
    (10 * digitsValue (all.take digitLimit) + 1,
      (all.length : Int) - (digitLimit + 1) - fraction.length)
  else (digitsValue all, -fraction.length)

/-- The number that a sign and the digits before the point, after it and of the exponent spell.
Without a point and an exponent it is whole if it fits a word; minus zero does not. -/
def numberOf (negative : Bool) (digits : List Char) (fraction : Option (List Char))
    (exponent : Option Int) : Leaf Number :=
  let whole := digitsValue digits
  let scaled := decimalOf digits (fraction.getD [])
  let decimal := match Binary64.ofDecimal? negative scaled.1 (exponent.getD 0 + scaled.2) with
    | some x => Leaf.good (.decimal x)
    | none => Leaf.flawed .outOfRange
  match fraction, exponent with
  | none, none =>
    if negative then
      if 0 < whole ∧ 2 * whole ≤ UInt64.size then .good (.whole (-(whole : Int))) else decimal
    else if whole < UInt64.size then .good (.whole whole) else decimal
  | _, _ => decimal

/-- A number cut short: a reader tells the end of the text from another character there. -/
def cutNumber (rest : List Char) : Leaf Number :=
  .broken (if rest.isEmpty then .endInValue else .invalidNumber) .invalidNumber

def lexSign : List Char → Bool × List Char
  | '-' :: rest => (true, rest)
  | '+' :: rest => (false, rest)
  | rest => (false, rest)

def lexExponent : List Char → Except (List Char) (Option Int × List Char)
  | [] => .ok (none, [])
  | c :: s =>
    if c = 'e' ∨ c = 'E' then
      let digits := (lexSign s).2.takeWhile Char.isDigit
      let rest := (lexSign s).2.dropWhile Char.isDigit
      if digits.isEmpty then .error rest
      else .ok (some (if (lexSign s).1 then -digitsValue digits else digitsValue digits), rest)
    else .ok (none, c :: s)

def lexFraction : List Char → Except (List Char) (Option (List Char) × List Char)
  | '.' :: rest =>
    let digits := rest.takeWhile Char.isDigit
    let after := rest.dropWhile Char.isDigit
    if digits.isEmpty then .error after else .ok (some digits, after)
  | rest => .ok (none, rest)

theorem dropWhile_length_le (p : Char → Bool) (s : List Char) :
    (s.dropWhile p).length ≤ s.length :=
  (List.dropWhile_sublist p).length_le

theorem lexSign_length (s : List Char) : (lexSign s).2.length ≤ s.length := by
  unfold lexSign
  split <;> simp

theorem lexExponent_length {s rest : List Char} {e : Option Int}
    (h : lexExponent s = .ok (e, rest)) : rest.length ≤ s.length := by
  unfold lexExponent at h
  split at h
  · simp only [Except.ok.injEq, Prod.mk.injEq] at h
    obtain ⟨_, rfl⟩ := h
    exact Nat.le_refl _
  · rename_i c tail
    simp only at h
    split at h
    · split at h
      · simp at h
      · simp only [Except.ok.injEq, Prod.mk.injEq] at h
        obtain ⟨_, rfl⟩ := h
        have := dropWhile_length_le Char.isDigit (lexSign tail).2
        have := lexSign_length tail
        simp only [List.length_cons]
        omega
    · simp only [Except.ok.injEq, Prod.mk.injEq] at h
      obtain ⟨_, rfl⟩ := h
      exact Nat.le_refl _

theorem lexFraction_length {s rest : List Char} {f : Option (List Char)}
    (h : lexFraction s = .ok (f, rest)) : rest.length ≤ s.length := by
  unfold lexFraction at h
  split at h
  · rename_i tail
    simp only at h
    split at h
    · simp at h
    · simp only [Except.ok.injEq, Prod.mk.injEq] at h
      obtain ⟨_, rfl⟩ := h
      have := dropWhile_length_le Char.isDigit tail
      simp only [List.length_cons]
      omega
  · simp only [Except.ok.injEq, Prod.mk.injEq] at h
    obtain ⟨_, rfl⟩ := h
    exact Nat.le_refl _

def lexNumber (negative : Bool) (s : List Char) : Leaf Number × List Char :=
  let digits := s.takeWhile Char.isDigit
  let rest := s.dropWhile Char.isDigit
  match digits with
  | [] => (cutNumber rest, [])
  | '0' :: _ :: _ => (.broken .invalidNumber .invalidNumber, [])
  | _ =>
    match lexFraction rest with
    | .error after => (cutNumber after, [])
    | .ok (fraction, rest) =>
      match lexExponent rest with
      | .error after => (cutNumber after, [])
      | .ok (exponent, rest) => (numberOf negative digits fraction exponent, rest)

theorem lexNumber_length (negative : Bool) (s : List Char) :
    (lexNumber negative s).2.length ≤ (s.dropWhile Char.isDigit).length := by
  unfold lexNumber
  simp only
  split
  · simp
  · simp
  · split
    · simp
    · rename_i hfraction
      have := lexFraction_length hfraction
      split
      · simp
      · rename_i hexponent
        have := lexExponent_length hexponent
        simp only
        omega

def hexDigit? (c : Char) : Option Nat :=
  if c.isDigit then some (c.toNat - '0'.toNat)
  else if 'a' ≤ c ∧ c ≤ 'f' then some (c.toNat - 'a'.toNat + 10)
  else if 'A' ≤ c ∧ c ≤ 'F' then some (c.toNat - 'A'.toNat + 10)
  else none

/-- The four hexadecimal digits at the head of a text. A text of fewer than four bytes ends too
early. -/
def lexHex (s : List Char) : Except TextFault (Nat × List Char) :=
  if (String.ofList (s.take 4)).utf8ByteSize < 4 then .error .endInText
  else
    match s with
    | a :: b :: c :: d :: rest =>
      match hexDigit? a, hexDigit? b, hexDigit? c, hexDigit? d with
      | some a, some b, some c, some d => .ok (((a * 16 + b) * 16 + c) * 16 + d, rest)
      | _, _, _, _ => .error .invalidEscape
    | _ => .error .invalidEscape

theorem lexHex_length {s rest : List Char} {n : Nat} (h : lexHex s = .ok (n, rest)) :
    rest.length < s.length := by
  unfold lexHex at h
  split at h
  · simp at h
  · split at h
    · split at h
      · simp only [Except.ok.injEq, Prod.mk.injEq] at h
        obtain ⟨_, rfl⟩ := h
        simp only [List.length_cons]
        omega
      · simp at h
    · simp at h

def simpleEscape? (c : Char) : Option Char :=
  if c = '"' then some '"'
  else if c = '\\' then some '\\'
  else if c = '/' then some '/'
  else if c = 'b' then some '\x08'
  else if c = 'f' then some '\x0c'
  else if c = 'n' then some '\n'
  else if c = 'r' then some '\r'
  else if c = 't' then some '\t'
  else none

def lexLowSurrogate (high : Nat) : List Char → Except TextFault (Nat × List Char)
  | [] => .error .endInText
  | ['\\'] => .error .endInText
  | '\\' :: 'u' :: rest =>
    match lexHex rest with
    | .error fault => .error fault
    | .ok (low, rest) =>
      if 0xDC00 ≤ low ∧ low ≤ 0xDFFF then
        .ok ((high - 0xD800) * 0x400 + (low - 0xDC00) + 0x10000, rest)
      else .error .loneSurrogate
  | _ => .error .cutSurrogatePair

theorem lexLowSurrogate_length {high n : Nat} {s rest : List Char}
    (h : lexLowSurrogate high s = .ok (n, rest)) : rest.length < s.length := by
  unfold lexLowSurrogate at h
  split at h
  · simp at h
  · simp at h
  · split at h
    · simp at h
    · rename_i heq
      split at h
      · simp only [Except.ok.injEq, Prod.mk.injEq] at h
        obtain ⟨_, rfl⟩ := h
        have := lexHex_length heq
        simp only [List.length_cons]
        omega
      · simp at h
  · simp at h

def lexCodePoint (s : List Char) : Except TextFault (Nat × List Char) :=
  match lexHex s with
  | .error fault => .error fault
  | .ok (n, rest) =>
    if 0xDC00 ≤ n ∧ n ≤ 0xDFFF then .error .loneSurrogate
    else if 0xD800 ≤ n ∧ n ≤ 0xDBFF then lexLowSurrogate n rest
    else .ok (n, rest)

theorem lexCodePoint_length {n : Nat} {s rest : List Char}
    (h : lexCodePoint s = .ok (n, rest)) : rest.length < s.length := by
  unfold lexCodePoint at h
  split at h
  · simp at h
  · rename_i heq
    have := lexHex_length heq
    split at h
    · simp at h
    · split at h
      · have := lexLowSurrogate_length h
        omega
      · simp only [Except.ok.injEq, Prod.mk.injEq] at h
        obtain ⟨_, rfl⟩ := h
        omega

/-- The characters of a text up to its closing quote, after those in `read`, which come in
reverse. -/
def readText (read : List Char) (s : List Char) : Except TextFault (String × List Char) :=
  match s with
  | [] => .error .endInText
  | '"' :: rest => .ok (String.ofList read.reverse, rest)
  | ['\\'] => .error .endInText
  | '\\' :: 'u' :: rest =>
    match _h : lexCodePoint rest with
    | .error fault => .error fault
    | .ok (n, rest) => readText (Char.ofNat n :: read) rest
  | '\\' :: c :: rest =>
    match simpleEscape? c with
    | none => .error .invalidEscape
    | some d => readText (d :: read) rest
  | c :: rest =>
    if c.toNat < 0x20 then .error .controlCharacter else readText (c :: read) rest
termination_by s.length
decreasing_by
  · have := lexCodePoint_length _h
    simp only [List.length_cons]
    omega
  · simp only [List.length_cons]
    omega
  · simp only [List.length_cons]
    omega

theorem readText_length {read s rest : List Char} {t : String}
    (h : readText read s = .ok (t, rest)) : rest.length ≤ s.length := by
  fun_induction readText read s with
  | case1 | case3 | case4 | case6 | case8 => simp at h
  | case2 read rest =>
    simp only [Except.ok.injEq, Prod.mk.injEq] at h
    obtain ⟨_, rfl⟩ := h
    simp
  | case5 read rest n after heq ih =>
    have := ih h
    have := lexCodePoint_length heq
    simp only [List.length_cons]
    omega
  | case7 read c rest _ d _ ih =>
    have := ih h
    simp only [List.length_cons]
    omega
  | case9 =>
    rename_i ih
    have := ih h
    simp only [List.length_cons]
    omega

/-- What follows the closing quote of a text whose escapes are not paired into characters. -/
def skipText (s : List Char) : Except TextFault (List Char) :=
  match s with
  | [] => .error .endInText
  | '"' :: rest => .ok rest
  | ['\\'] => .error .endInText
  | '\\' :: 'u' :: rest =>
    match _h : lexHex rest with
    | .error fault => .error fault
    | .ok (_, rest) => skipText rest
  | '\\' :: c :: rest =>
    match simpleEscape? c with
    | none => .error .invalidEscape
    | some _ => skipText rest
  | c :: rest => if c.toNat < 0x20 then .error .controlCharacter else skipText rest
termination_by s.length
decreasing_by
  · have := lexHex_length _h
    simp only [List.length_cons]
    omega
  · simp only [List.length_cons]
    omega
  · simp only [List.length_cons]
    omega

theorem skipText_length {s rest : List Char} (h : skipText s = .ok rest) :
    rest.length ≤ s.length := by
  fun_induction skipText s with
  | case1 | case3 | case4 | case6 | case8 => simp at h
  | case2 rest =>
    simp only [Except.ok.injEq] at h
    subst h
    simp
  | case5 rest n after heq ih =>
    have := ih h
    have := lexHex_length heq
    simp only [List.length_cons]
    omega
  | case7 c rest _ d _ ih =>
    have := ih h
    simp only [List.length_cons]
    omega
  | case9 =>
    rename_i ih
    have := ih h
    simp only [List.length_cons]
    omega

def lexText (s : List Char) : Leaf String × List Char :=
  match readText [] s with
  | .ok (t, rest) => (.good t, rest)
  | .error fault =>
    match skipText s with
    | .ok rest => (.flawed fault, rest)
    | .error skipFault => (.broken fault skipFault, [])

theorem lexText_length (s : List Char) : (lexText s).2.length ≤ s.length := by
  unfold lexText
  split
  · rename_i h
    exact readText_length h
  · split
    · rename_i h
      exact skipText_length h
    · simp

def lexWord : List Char → List Char → Except TextFault (List Char)
  | [], rest => .ok rest
  | _ :: _, [] => .error .endInValue
  | w :: word, c :: rest => if c = w then lexWord word rest else .error .expectedWord

theorem lexWord_length {word s rest : List Char} (h : lexWord word s = .ok rest) :
    rest.length ≤ s.length := by
  fun_induction lexWord word s with
  | case1 =>
    simp only [Except.ok.injEq] at h
    subst h
    exact Nat.le_refl _
  | case2 | case4 => simp at h
  | case3 =>
    rename_i ih
    have := ih h
    simp only [List.length_cons]
    omega

def wordToken (word : List Char) (token : Token) (s : List Char) : Token × List Char :=
  match lexWord word s with
  | .ok rest => (token, rest)
  | .error fault => (.brokenWord (token = .null) fault, [])

theorem wordToken_length (word : List Char) (token : Token) (s : List Char) :
    (wordToken word token s).2.length ≤ s.length := by
  unfold wordToken
  split
  · rename_i h
    exact lexWord_length h
  · simp

def lexOne (c : Char) (s : List Char) : Token × List Char :=
  if c = '[' then (.openArray, s)
  else if c = ']' then (.closeArray, s)
  else if c = '\x7b' then (.openObject, s)
  else if c = '\x7d' then (.closeObject, s)
  else if c = ',' then (.comma, s)
  else if c = ':' then (.colon, s)
  else if c = 'n' then wordToken ['u', 'l', 'l'] .null s
  else if c = 't' then wordToken ['r', 'u', 'e'] (.bool true) s
  else if c = 'f' then wordToken ['a', 'l', 's', 'e'] (.bool false) s
  else if c = '"' then (.text (lexText s).1, (lexText s).2)
  else if c = '-' then (.number (lexNumber true s).1, (lexNumber true s).2)
  else if c.isDigit then (.number (lexNumber false (c :: s)).1, (lexNumber false (c :: s)).2)
  else (.stray, [])

theorem ite_rest_length_le {p : Prop} [Decidable p] {a b : Token × List Char} {n : Nat}
    (ha : p → a.2.length ≤ n) (hb : b.2.length ≤ n) : (if p then a else b).2.length ≤ n := by
  by_cases h : p
  · rw [if_pos h]
    exact ha h
  · rw [if_neg h]
    exact hb

theorem lexOne_length (c : Char) (s : List Char) : (lexOne c s).2.length ≤ s.length := by
  have hdrop := dropWhile_length_le Char.isDigit s
  unfold lexOne
  refine ite_rest_length_le (fun _ => Nat.le_refl _) ?_
  refine ite_rest_length_le (fun _ => Nat.le_refl _) ?_
  refine ite_rest_length_le (fun _ => Nat.le_refl _) ?_
  refine ite_rest_length_le (fun _ => Nat.le_refl _) ?_
  refine ite_rest_length_le (fun _ => Nat.le_refl _) ?_
  refine ite_rest_length_le (fun _ => Nat.le_refl _) ?_
  refine ite_rest_length_le (fun _ => wordToken_length _ _ _) ?_
  refine ite_rest_length_le (fun _ => wordToken_length _ _ _) ?_
  refine ite_rest_length_le (fun _ => wordToken_length _ _ _) ?_
  refine ite_rest_length_le (fun _ => lexText_length _) ?_
  refine ite_rest_length_le (fun _ => Nat.le_trans (lexNumber_length true s) hdrop) ?_
  refine ite_rest_length_le (fun h => ?_) (Nat.zero_le _)
  have hdigits := lexNumber_length false (c :: s)
  rw [List.dropWhile_cons_of_pos h] at hdigits
  exact Nat.le_trans hdigits hdrop

/-- The blanks between tokens. -/
def isSpace (c : Char) : Bool := c = ' ' || c = '\n' || c = '\t' || c = '\r'

def lex (s : List Char) : List Token :=
  match s with
  | [] => []
  | c :: s => if isSpace c then lex s else (lexOne c s).1 :: lex (lexOne c s).2
termination_by s.length
decreasing_by
  · simp
  · have := lexOne_length c s
    simp only [List.length_cons]
    omega

end Token

end Runbook.Json
