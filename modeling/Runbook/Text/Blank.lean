/-!
Blank characters: the characters with the Unicode property White_Space, twenty-five in all, and
the trimming of texts by them.
-/
namespace Runbook.Text

def blankRanges : List (Nat × Nat) :=
  [(0x9, 0xD), (0x20, 0x20), (0x85, 0x85), (0xA0, 0xA0), (0x1680, 0x1680), (0x2000, 0x200A),
   (0x2028, 0x2029), (0x202F, 0x202F), (0x205F, 0x205F), (0x3000, 0x3000)]

def isBlank (c : Char) : Bool :=
  blankRanges.any fun range => decide (range.1 ≤ c.toNat ∧ c.toNat ≤ range.2)

def IsAllBlank (s : String) : Prop := ∀ c ∈ s.toList, isBlank c = true

instance (s : String) : Decidable (IsAllBlank s) := inferInstanceAs (Decidable (∀ c ∈ _, _))

def trimEnd (s : List Char) : List Char := (s.reverse.dropWhile isBlank).reverse

end Runbook.Text
