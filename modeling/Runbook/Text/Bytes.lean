/-!
Bytes shown as text. Bytes in UTF-8 stand for the characters that they encode; elsewhere the
longest start of an encoding, or else a single byte, makes a flaw, and reading goes on behind it.
-/
namespace Runbook.Text

/-- The bytes that may follow the first byte of an encoding, as ranges. No encoding is longer than
it has to be, and none is of a surrogate or lies behind the last code point. -/
def followers (first : Nat) : List (Nat × Nat) :=
  if first < 0xC2 then []
  else if first < 0xE0 then [(0x80, 0xBF)]
  else if first = 0xE0 then [(0xA0, 0xBF), (0x80, 0xBF)]
  else if first = 0xED then [(0x80, 0x9F), (0x80, 0xBF)]
  else if first < 0xF0 then [(0x80, 0xBF), (0x80, 0xBF)]
  else if first = 0xF0 then [(0x90, 0xBF), (0x80, 0xBF), (0x80, 0xBF)]
  else if first < 0xF4 then [(0x80, 0xBF), (0x80, 0xBF), (0x80, 0xBF)]
  else if first = 0xF4 then [(0x80, 0x8F), (0x80, 0xBF), (0x80, 0xBF)]
  else []

def following : List (Nat × Nat) → List UInt8 → List UInt8
  | range :: ranges, b :: rest =>
    if range.1 ≤ b.toNat ∧ b.toNat ≤ range.2 then b :: following ranges rest else []
  | _, _ => []

def encodedChar (first : Nat) (rest : List UInt8) : Char :=
  Char.ofNat (rest.foldl (fun n b => n * 64 + b.toNat % 64) (first % Nat.pow 2 (6 - rest.length)))

/-- The characters that bytes stand for, with nothing in the place of a flaw. -/
def decodeBytes : List UInt8 → List (Option Char)
  | [] => []
  | b :: rest =>
    if b.toNat < 0x80 then some (Char.ofNat b.toNat) :: decodeBytes rest
    else
      let ranges := followers b.toNat
      let behind := following ranges rest
      let c := if !ranges.isEmpty && behind.length = ranges.length then
        some (encodedChar b.toNat behind) else none
      c :: decodeBytes (rest.drop behind.length)
termination_by bytes => bytes.length
decreasing_by
  · simp
  · simp only [List.length_drop, List.length_cons]
    omega

/-- The text of some bytes, in which U+FFFD stands for every flaw. -/
def ofBytes (bytes : List UInt8) : String :=
  String.ofList ((decodeBytes bytes).map fun c => c.getD (Char.ofNat 0xFFFD))

end Runbook.Text
