/-!
Whole numbers in decimal digits.
-/
namespace Runbook.Text

def numeralChars (n : Nat) : List Char := Nat.toDigits 10 n

def numeral (n : Nat) : String := String.ofList (numeralChars n)

end Runbook.Text
