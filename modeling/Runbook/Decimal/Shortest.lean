import Runbook.Decimal.Binary64

/-!
The fewest decimal digits that read back as a given binary64 number. The magnitude is compared
with its two neighbours on the decimal grids of one digit, two digits and so on; the first grid
with a neighbour that reads back wins, of two such neighbours the nearer one, and a tie is settled
by the caller's rule.
-/
namespace Runbook

/-- What becomes of a decimal half way between two grid points. -/
inductive Tie where
  | toEven
  | up
deriving DecidableEq, Repr

structure Decimal where
  digits : Nat
  exponent : Int
deriving DecidableEq, Repr

namespace Decimal

/-- The power of ten at which a magnitude is cut to a whole number before its digits are counted.
The least positive magnitude keeps twenty digits there. -/
def cut : Nat := 343

/-- The same magnitude with the closing zeros of its digits moved into the exponent. At most
`fuel` zeros are moved. -/
def strip : Nat → Decimal → Decimal
  | 0, d => d
  | fuel + 1, d =>
    if d.digits ≠ 0 ∧ d.digits % 10 = 0 then strip fuel ⟨d.digits / 10, d.exponent + 1⟩ else d

def readsBack (x : Binary64) (d : Decimal) : Bool :=
  match Binary64.ofDecimal? x.negative d.digits d.exponent with
  | some y => decide (y = x)
  | none => false

def whole (x : Binary64) : Nat := x.units * Nat.pow 10 cut / Binary64.unitsOfOne

def length (x : Binary64) : Nat := (Nat.toDigits 10 (whole x)).length

def nearer (tie : Tie) (below above : Decimal) (toBelow toAbove : Nat) : Decimal :=
  if toBelow < toAbove then below
  else if toAbove < toBelow then above
  else match tie with
    | .up => above
    | .toEven => if below.digits % 2 = 0 then below else above

/-- The neighbour of the magnitude of `x` on the grid of `count` digits that reads back. -/
def onGrid (tie : Tie) (x : Binary64) (count : Nat) : Option Decimal :=
  let exact := x.units * Nat.pow 10 cut
  let step := Nat.pow 10 (length x - count)
  let low := whole x / step
  let exponent : Int := (length x : Int) - count - cut
  let below : Decimal := ⟨low, exponent⟩
  let above : Decimal := ⟨low + 1, exponent⟩
  let toBelow := exact - low * step * Binary64.unitsOfOne
  let toAbove := (low + 1) * step * Binary64.unitsOfOne - exact
  if readsBack x below then
    if readsBack x above then some (nearer tie below above toBelow toAbove) else some below
  else if readsBack x above then some above
  else none

def exact (x : Binary64) : Decimal := ⟨x.units * Nat.pow 5 1074, -1074⟩

/-- The fewest digits that read back as `x`. Seventeen always suffice. -/
def shortest (tie : Tie) (x : Binary64) : Decimal :=
  if x.rank = 0 then ⟨0, 0⟩
  else strip 400 (((List.range 17).findSome? fun n => onGrid tie x (n + 1)).getD (exact x))

end Decimal

/-- How a number is laid out in decimal. `positional` holds of the powers of ten whose numbers
are written without an exponent, and `pointZero` adds `.0` to whole numbers written that way. -/
structure Layout where
  tie : Tie
  positional : Int → Bool
  pointZero : Bool

namespace Layout

def positionalText (pointZero : Bool) (d : Decimal) : List Char :=
  let digits := Nat.toDigits 10 d.digits
  if 0 ≤ d.exponent then
    digits ++ List.replicate d.exponent.toNat '0' ++ (if pointZero then ['.', '0'] else [])
  else
    let places := (-d.exponent).toNat
    let padded := List.replicate (places + 1 - digits.length) '0' ++ digits
    padded.take (padded.length - places) ++ '.' :: padded.drop (padded.length - places)

def scientificText (d : Decimal) : List Char :=
  let digits := Nat.toDigits 10 d.digits
  let power : Int := d.exponent + digits.length - 1
  let lead := match digits with
    | [] => []
    | [c] => [c]
    | c :: rest => c :: '.' :: rest
  lead ++ 'e' :: (if power < 0 then '-' else '+') :: Nat.toDigits 10 power.natAbs

def text (layout : Layout) (x : Binary64) : List Char :=
  let d := Decimal.shortest layout.tie x
  let power : Int := d.exponent + (Nat.toDigits 10 d.digits).length - 1
  let body :=
    if layout.positional power then positionalText layout.pointZero d else scientificText d
  if x.negative then '-' :: body else body

/-- Numbers in data: a half goes to the even digit, powers of ten from the fifth below one to the
fifteenth are written out, and whole numbers end in `.0`. -/
def data : Layout := ⟨.toEven, fun power => decide (-5 ≤ power ∧ power < 16), true⟩

/-- Numbers in scripts: a half goes up, every number is written out, whole numbers without a
point. -/
def script : Layout := ⟨.up, fun _ => true, false⟩

end Layout

end Runbook
