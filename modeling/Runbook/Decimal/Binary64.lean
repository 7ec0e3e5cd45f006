/-!
Finite binary64 numbers without the machine's floating point. A number is its sign and the rank
of its magnitude in the ascending list of finite magnitudes, so equality is decidable and every
magnitude is a whole count of the least positive one. Reading a decimal rounds an exact quotient
to the nearest rank, a half going to the even neighbour.
-/
namespace Runbook

def Binary64.binade : Nat := Nat.pow 2 52

/-- A finite binary64 number. The rank counts the finite magnitudes below its own. -/
structure Binary64 where
  negative : Bool
  rank : Nat
  rank_lt : rank < 2047 * Binary64.binade := by decide
deriving DecidableEq, Repr

namespace Binary64

def unitsOfOne : Nat := Nat.pow 2 1074

def units (x : Binary64) : Nat :=
  let exponent := x.rank / binade
  let fraction := x.rank % binade
  if exponent = 0 then fraction else (binade + fraction) * Nat.pow 2 (exponent - 1)

/-- The whole number nearest to a quotient, a half going to the even neighbour. -/
def roundHalfEven (num den : Nat) : Nat :=
  let quotient := num / den
  let rest := num % den
  if 2 * rest < den then quotient
  else if den < 2 * rest then quotient + 1
  else quotient + quotient % 2

/-- The rank nearest to a quotient, past the last finite rank when the quotient is too large. -/
def nearestRank (num den : Nat) : Nat :=
  let scaled := num * unitsOfOne
  let shift := Nat.log2 (scaled / den) + 1 - 53
  shift * binade + roundHalfEven scaled (den * Nat.pow 2 shift)

def ofRank? (negative : Bool) (rank : Nat) : Option Binary64 :=
  if h : rank < 2047 * binade then some ⟨negative, rank, h⟩ else none

/-- The number nearest to `digits * 10 ^ exponent`, or none when that is past the finite range.
Exponents far outside the range are settled by the count of digits alone. -/
def ofDecimal? (negative : Bool) (digits : Nat) (exponent : Int) : Option Binary64 :=
  let top : Int := exponent + (Nat.toDigits 10 digits).length
  if digits = 0 ∨ top < -330 then ofRank? negative 0
  else if 310 < top then none
  else if 0 ≤ exponent then ofRank? negative (nearestRank (digits * Nat.pow 10 exponent.toNat) 1)
  else ofRank? negative (nearestRank digits (Nat.pow 10 (-exponent).toNat))

def zero : Binary64 := ⟨false, 0, by decide⟩

def largest (negative : Bool) : Binary64 := ⟨negative, 2047 * binade - 1, by decide⟩

def ofInt (n : Int) : Binary64 :=
  (ofRank? (decide (n < 0)) (nearestRank n.natAbs 1)).getD (largest (decide (n < 0)))

instance : Inhabited Binary64 := ⟨zero⟩

end Binary64

end Runbook
