import Mathlib.Algebra.Order.Ring.Nat
import Mathlib.Data.Nat.Digits.Defs
import Mathlib.Tactic.Common
import Mathlib.Tactic.NormNum
import Mathlib.Tactic.Ring
import Runbook.Decimal.Shortest

/-!
Decimals that read back. A quotient close enough to a binary64 number is rounded to that number,
and of the two decimals of seventeen digits around a number one is that close. So the digits that
are found for a number always read back as it, and there are never more than eighteen of them.
-/
namespace Runbook

namespace Binary64

def topPower : Nat := 2045

/-- A magnitude is a whole number of at most fifty-three bits times a power of two. -/
structure IsScaled (x : Binary64) (significand power : Nat) : Prop where
  units_eq : x.units = significand * 2 ^ power
  rank_eq : x.rank = power * binade + significand
  lt : significand < 2 ^ 53
  normal : power = 0 ∨ 2 ^ 52 ≤ significand

theorem exists_isScaled (x : Binary64) : ∃ significand power, x.IsScaled significand power := by
  have hbinade : binade = 2 ^ 52 := rfl
  have hfraction : x.rank % binade < binade := Nat.mod_lt _ (by decide)
  have hrank := Nat.div_add_mod x.rank binade
  by_cases hzero : x.rank / binade = 0
  · refine ⟨x.rank % binade, 0, ?_, ?_, by omega, .inl rfl⟩
    · simp [units, hzero]
    · rw [hzero] at hrank
      omega
  · obtain ⟨power, hpower⟩ := Nat.exists_eq_succ_of_ne_zero hzero
    refine ⟨binade + x.rank % binade, power, ?_, ?_, by omega, .inr (by omega)⟩
    · simp [units, hpower]
    · rw [hpower, Nat.mul_succ, Nat.mul_comm] at hrank
      omega

theorem units_pos {x : Binary64} (h : x.rank ≠ 0) : 0 < x.units := by
  obtain ⟨m, k, hscaled⟩ := x.exists_isScaled
  have hm : 0 < m := by
    rcases hscaled.normal with rfl | hm
    · have hrank := hscaled.rank_eq
      omega
    · exact Nat.lt_of_lt_of_le (by decide) hm
  rw [hscaled.units_eq]
  exact Nat.mul_pos hm (Nat.two_pow_pos k)

theorem units_lt (x : Binary64) : x.units < 2 ^ (53 + topPower) := by
  obtain ⟨m, k, hscaled⟩ := x.exists_isScaled
  have hbinade : binade = 2 ^ 52 := rfl
  have hrank := x.rank_lt
  have hpower : k ≤ topPower := by
    rcases hscaled.normal with rfl | hm
    · exact Nat.zero_le _
    · have heq := hscaled.rank_eq
      have htop : topPower = 2045 := rfl
      rw [hbinade] at heq hrank
      omega
  calc x.units = m * 2 ^ k := hscaled.units_eq
    _ < 2 ^ 53 * 2 ^ k := Nat.mul_lt_mul_of_pos_right hscaled.lt (Nat.two_pow_pos k)
    _ = 2 ^ (53 + k) := (Nat.pow_add 2 53 k).symm
    _ ≤ 2 ^ (53 + topPower) :=
        Nat.pow_le_pow_right (by decide) (Nat.add_le_add_left hpower 53)

theorem roundHalfEven_eq {num den n : Nat} (hbelow : 2 * (n * den - num) < den)
    (habove : 2 * (num - n * den) < den) : roundHalfEven num den = n := by
  have hden : 0 < den := by omega
  unfold roundHalfEven
  rcases Nat.lt_or_ge num (n * den) with hless | hless
  · -- the quotient is one less, and the rest is more than a half
    obtain ⟨m, rfl⟩ : ∃ m, n = m + 1 := by
      cases n with
      | zero => omega
      | succ m => exact ⟨m, rfl⟩
    have hsucc : (m + 1) * den = m * den + den := Nat.succ_mul m den
    rw [hsucc] at hless hbelow habove
    have hquotient : num / den = m := by
      rw [Nat.div_eq_iff hden]
      omega
    have hrest : num % den = num - m * den := by
      rw [Nat.mod_eq_sub_div_mul, hquotient]
    simp only [hquotient, hrest]
    rw [if_neg (by omega), if_pos (by omega)]
  · have hquotient : num / den = n := by
      rw [Nat.div_eq_iff hden]
      omega
    have hrest : num % den = num - n * den := by
      rw [Nat.mod_eq_sub_div_mul, hquotient]
    simp only [hquotient, hrest]
    rw [if_pos (by omega)]

theorem log2_eq {n k : Nat} (hlow : 2 ^ k ≤ n) (hhigh : n < 2 ^ (k + 1)) : n.log2 = k := by
  have hn : n ≠ 0 := Nat.ne_of_gt (Nat.lt_of_lt_of_le (Nat.two_pow_pos k) hlow)
  have hle := (Nat.le_log2 hn).mpr hlow
  have hlt := (Nat.log2_lt hn).mpr hhigh
  omega

def closeness : Nat := 2 * 10 ^ 16

structure IsClose (x : Binary64) (num den : Nat) : Prop where
  den_pos : 0 < den
  below : closeness * (x.units * den - num * unitsOfOne) ≤ x.units * den
  above : closeness * (num * unitsOfOne - x.units * den) ≤ x.units * den

/-- The rank nearest to a quotient whose last bit is known. -/
theorem nearestRank_of_shift {num den shift n : Nat}
    (hshift : Nat.log2 (num * unitsOfOne / den) + 1 - 53 = shift)
    (hbelow : 2 * (n * (2 ^ shift * den) - num * unitsOfOne) < 2 ^ shift * den)
    (habove : 2 * (num * unitsOfOne - n * (2 ^ shift * den)) < 2 ^ shift * den) :
    nearestRank num den = shift * binade + n := by
  have hround : roundHalfEven (num * unitsOfOne) (den * 2 ^ shift) = n := by
    rw [Nat.mul_comm den]
    exact roundHalfEven_eq hbelow habove
  unfold nearestRank
  simp only [hshift]
  exact congrArg _ hround

/-- A quotient under a power of two is close to no number but the power, and units are half as
large there. -/
theorem nearestRank_under {num den m j : Nat} (hden : 0 < den) (hm : 2 ^ 52 ≤ m)
    (hless : num * unitsOfOne / den < 2 ^ (j + 1 + 52))
    (hbelow : closeness * (m * (2 ^ (j + 1) * den) - num * unitsOfOne) ≤
      m * (2 ^ (j + 1) * den)) :
    m = 2 ^ 52 ∧ nearestRank num den = j * binade + 2 ^ 53 := by
  have hcloseness : closeness = 20000000000000000 := rfl
  have hquotient := hless
  generalize hscale : num * unitsOfOne = scaled at hless hbelow
  obtain ⟨half, hhalf⟩ : ∃ half, 2 ^ j * den = half := ⟨_, rfl⟩
  have hpos : 0 < half := hhalf ▸ Nat.mul_pos (Nat.two_pow_pos j) hden
  have htwice : 2 ^ (j + 1) * den = 2 * half := by
    rw [← hhalf, Nat.pow_succ]
    ring
  rw [htwice, hcloseness] at hbelow
  have hunder : scaled < 2 ^ 52 * (2 * half) := by
    rwa [Nat.div_lt_iff_lt_mul hden, Nat.pow_add, Nat.mul_right_comm, htwice,
      Nat.mul_comm (2 * half)] at hless
  have hmin : 2 ^ 52 * (2 * half) ≤ m * (2 * half) := Nat.mul_le_mul_right _ hm
  obtain rfl : m = 2 ^ 52 := by
    by_contra hne
    have hmore : (2 ^ 52 + 1) * (2 * half) ≤ m * (2 * half) :=
      Nat.mul_le_mul_right _ (by omega)
    omega
  have hlog : Nat.log2 (scaled / den) = j + 52 := by
    apply log2_eq
    · rw [Nat.le_div_iff_mul_le hden, Nat.pow_add, Nat.mul_right_comm, hhalf]
      omega
    · rw [← hscale]
      exact Nat.lt_of_lt_of_le hquotient (Nat.pow_le_pow_right (by decide) (by omega))
  refine ⟨rfl, nearestRank_of_shift (by rw [hscale, hlog]; omega) ?_ ?_⟩
  · rw [hscale, hhalf]
    omega
  · rw [hscale, hhalf]
    omega

theorem IsClose.nearestRank_eq {x : Binary64} {num den : Nat} (h : x.IsClose num den) :
    nearestRank num den = x.rank := by
  obtain ⟨m, k, hscaled⟩ := x.exists_isScaled
  have hcloseness : closeness = 20000000000000000 := rfl
  -- everything is measured against the unit of the last bit of the number
  obtain ⟨unit, hunit⟩ : ∃ unit, 2 ^ k * den = unit := ⟨_, rfl⟩
  have hpos : 0 < unit := hunit ▸ Nat.mul_pos (Nat.two_pow_pos k) h.den_pos
  have hvalue : x.units * den = m * unit := by rw [hscaled.units_eq, Nat.mul_assoc, hunit]
  have hbelow := h.below
  have habove := h.above
  rw [hvalue] at hbelow habove
  have hm : m ≤ 2 ^ 53 - 1 := Nat.le_sub_one_of_lt hscaled.lt
  have hmax : m * unit ≤ (2 ^ 53 - 1) * unit := Nat.mul_le_mul_right _ hm
  -- it is enough that the last bit of the quotient has the same unit
  suffices hshift : nearestRank num den = x.rank ∨
      Nat.log2 (num * unitsOfOne / den) + 1 - 53 = k by
    rcases hshift with hrank | hshift
    · exact hrank
    · rw [hcloseness] at hbelow habove
      rw [nearestRank_of_shift (n := m) hshift (by rw [hunit]; omega) (by rw [hunit]; omega),
        hscaled.rank_eq]
  have hquotient : num * unitsOfOne / den < 2 ^ (k + 53) := by
    rw [hcloseness] at habove
    rw [Nat.div_lt_iff_lt_mul h.den_pos, Nat.pow_add, Nat.mul_right_comm, hunit]
    omega
  rcases Nat.lt_or_ge (num * unitsOfOne / den) (2 ^ (k + 52)) with hless | hless
  · cases k with
    | zero =>
      -- below the first power of two all units are the same
      right
      have hlog : Nat.log2 (num * unitsOfOne / den) < 53 := by
        by_cases hzero : num * unitsOfOne / den = 0
        · rw [hzero]
          decide
        · exact (Nat.log2_lt hzero).mpr (by simpa using hquotient)
      omega
    | succ j =>
      left
      have hbinade : binade = 2 ^ 52 := rfl
      have hnormal := hscaled.normal.resolve_left (Nat.succ_ne_zero j)
      rw [← hunit] at hbelow
      obtain ⟨hpower, hrank⟩ := nearestRank_under h.den_pos hnormal hless hbelow
      rw [hrank, hscaled.rank_eq, hpower, Nat.succ_mul]
      omega
  · right
    rw [log2_eq hless hquotient]
    omega

theorem roundHalfEven_mul {c : Nat} (hc : 0 < c) (num den : Nat) :
    roundHalfEven (c * num) (c * den) = roundHalfEven num den := by
  have hless (a b : Nat) : c * a < c * b ↔ a < b := Nat.mul_lt_mul_left hc
  simp only [roundHalfEven, Nat.mul_div_mul_left _ _ hc, Nat.mul_mod_mul_left,
    Nat.mul_left_comm 2 c, hless]

/-- Equal quotients are rounded to the same number. -/
theorem nearestRank_mul {c : Nat} (hc : 0 < c) (num den : Nat) :
    nearestRank (c * num) (c * den) = nearestRank num den := by
  simp only [nearestRank, Nat.mul_assoc c, Nat.mul_div_mul_left _ _ hc, roundHalfEven_mul hc]

theorem length_toDigits_mul_ten {n : Nat} (hn : 0 < n) :
    (Nat.toDigits 10 (10 * n)).length = (Nat.toDigits 10 n).length + 1 := by
  have happend := Nat.toDigits_append_toDigits (b := 10) (d := 0) (by decide) hn (by decide)
  rw [Nat.add_zero] at happend
  rw [← happend, List.length_append]
  rfl

/-- A zero at the end of the digits counts for as much as one in the exponent. -/
theorem ofDecimal?_mul_ten (negative : Bool) (n : Nat) (exponent : Int) :
    ofDecimal? negative (10 * n) exponent = ofDecimal? negative n (exponent + 1) := by
  rcases Nat.eq_zero_or_pos n with rfl | hn
  · simp [ofDecimal?]
  have htop : exponent + ((Nat.toDigits 10 (10 * n)).length : Int) =
      exponent + 1 + (Nat.toDigits 10 n).length := by
    rw [length_toDigits_mul_ten hn]
    omega
  have hrank : (if 0 ≤ exponent then
        ofRank? negative (nearestRank (10 * n * Nat.pow 10 exponent.toNat) 1)
      else ofRank? negative (nearestRank (10 * n) (Nat.pow 10 (-exponent).toNat))) =
      if 0 ≤ exponent + 1 then
        ofRank? negative (nearestRank (n * Nat.pow 10 (exponent + 1).toNat) 1)
      else ofRank? negative (nearestRank n (Nat.pow 10 (-(exponent + 1)).toNat)) := by
    rcases lt_or_ge exponent 0 with hneg | hpos
    · obtain ⟨k, rfl⟩ : ∃ k : Nat, exponent = -(k + 1) := ⟨(-exponent - 1).toNat, by omega⟩
      have hlow : (-(-((k : Int) + 1))).toNat = k + 1 := by omega
      have hhigh : (-(-((k : Int) + 1) + 1)).toNat = k := by omega
      rw [if_neg (by omega), hlow, hhigh]
      have hpow : Nat.pow 10 (k + 1) = 10 * Nat.pow 10 k := Nat.pow_succ'
      rw [hpow, nearestRank_mul (by decide)]
      rcases Nat.eq_zero_or_pos k with rfl | hk
      · simp
      · rw [if_neg (by omega)]
    · have hsucc : (exponent + 1).toNat = exponent.toNat + 1 := by omega
      have hpow : Nat.pow 10 (exponent.toNat + 1) = 10 * Nat.pow 10 exponent.toNat :=
        Nat.pow_succ'
      rw [if_pos hpos, if_pos (by omega), hsucc, hpow, Nat.mul_left_comm, Nat.mul_assoc]
  have hzero : 10 * n = 0 ↔ n = 0 := by omega
  simp only [ofDecimal?, htop, hrank, hzero]

theorem ofDecimal?_mul_pow (negative : Bool) (n k : Nat) (exponent : Int) :
    ofDecimal? negative (10 ^ k * n) exponent = ofDecimal? negative n (exponent + k) := by
  induction k generalizing exponent with
  | zero => simp
  | succ k ih =>
    rw [Nat.pow_succ', Nat.mul_assoc, ofDecimal?_mul_ten, ih]
    congr 1
    omega

theorem ofRank?_rank (x : Binary64) : ofRank? x.negative x.rank = some x := by
  rw [ofRank?, dif_pos x.rank_lt]

/-- A number is read from digits close to it. -/
theorem IsClose.ofDecimal?_eq {x : Binary64} {digits : Nat}
    (h : x.IsClose digits (10 ^ Decimal.cut)) (hlow : 10 ^ 19 ≤ digits)
    (hhigh : digits < 10 ^ (Decimal.cut + 310)) :
    ofDecimal? x.negative digits (-(Decimal.cut : Int)) = some x := by
  have hcut : Decimal.cut = 343 := rfl
  have hne : digits ≠ 0 := by omega
  have hshort : (Nat.toDigits 10 digits).length ≤ Decimal.cut + 310 :=
    (Nat.length_toDigits_le_iff (by decide) (by omega)).mpr hhigh
  have hlong : ¬ (Nat.toDigits 10 digits).length ≤ 19 := by
    rw [Nat.length_toDigits_le_iff (by decide) (by decide)]
    omega
  have hneg : (-(-(Decimal.cut : Int))).toNat = Decimal.cut := by omega
  rw [ofDecimal?, if_neg (by omega), if_neg (by omega), if_neg (by omega), hneg, Nat.pow_eq,
    h.nearestRank_eq, ofRank?_rank]

end Binary64

namespace Decimal

open Binary64

variable {x : Binary64}

theorem readsBack_iff {d : Decimal} :
    readsBack x d = true ↔ ofDecimal? x.negative d.digits d.exponent = some x := by
  unfold readsBack
  cases ofDecimal? x.negative d.digits d.exponent <;> simp

theorem ofDecimal?_strip (negative : Bool) (fuel : Nat) (d : Decimal) :
    ofDecimal? negative (strip fuel d).digits (strip fuel d).exponent =
      ofDecimal? negative d.digits d.exponent := by
  induction fuel generalizing d with
  | zero => rfl
  | succ fuel ih =>
    unfold strip
    split
    · rename_i hzero
      have hdigits : 10 * (d.digits / 10) = d.digits := by omega
      rw [ih, ← ofDecimal?_mul_ten, hdigits]
    · rfl

theorem strip_digits_le (fuel : Nat) (d : Decimal) : (strip fuel d).digits ≤ d.digits := by
  induction fuel generalizing d with
  | zero => exact Nat.le_refl _
  | succ fuel ih =>
    unfold strip
    split
    · exact Nat.le_trans (ih _) (Nat.div_le_self _ _)
    · exact Nat.le_refl _

theorem whole_lt (x : Binary64) : whole x < 10 ^ length x :=
  (Nat.length_toDigits_le_iff (by decide) Nat.length_toDigits_pos).mp (Nat.le_refl _)

theorem low_lt (x : Binary64) (count : Nat) : whole x / 10 ^ (length x - count) < 10 ^ count := by
  rw [Nat.div_lt_iff_lt_mul (Nat.pow_pos (by decide)), ← Nat.pow_add]
  exact Nat.lt_of_lt_of_le (whole_lt x) (Nat.pow_le_pow_right (by decide) (by omega))

theorem nearer_eq_or (tie : Tie) (below above : Decimal) (toBelow toAbove : Nat) :
    nearer tie below above toBelow toAbove = below ∨
      nearer tie below above toBelow toAbove = above := by
  unfold nearer
  cases tie <;> simp only <;> split_ifs <;> simp

/-- A decimal found on a grid reads back, and it has no more digits than the grid but for the one
that stands above all others. -/
theorem readsBack_of_onGrid {tie : Tie} {count : Nat} {d : Decimal}
    (h : onGrid tie x count = some d) : readsBack x d = true ∧ d.digits ≤ 10 ^ count := by
  have hlow := low_lt x count
  unfold onGrid at h
  extract_lets exact step low exponent below above toBelow toAbove at h
  have hbelow : below.digits ≤ 10 ^ count := Nat.le_of_lt hlow
  have habove : above.digits ≤ 10 ^ count := hlow
  clear_value below above toBelow toAbove
  split at h
  · rename_i hread
    split at h
    · rename_i hread'
      obtain rfl := Option.some.inj h
      rcases nearer_eq_or tie below above toBelow toAbove with heq | heq <;> rw [heq]
      · exact ⟨hread, hbelow⟩
      · exact ⟨hread', habove⟩
    · obtain rfl := Option.some.inj h
      exact ⟨hread, hbelow⟩
  · split at h
    · rename_i hread
      obtain rfl := Option.some.inj h
      exact ⟨hread, habove⟩
    · exact absurd h (by simp)

theorem unitsOfOne_pos : 0 < unitsOfOne := by decide +kernel

theorem whole_eq (x : Binary64) : whole x = x.units * 10 ^ cut / unitsOfOne := by
  rw [whole, Nat.pow_eq]

theorem le_whole (h : x.rank ≠ 0) : 10 ^ 19 ≤ whole x := by
  have hcut : 10 ^ 19 * unitsOfOne ≤ 10 ^ cut := by decide +kernel
  rw [whole_eq, Nat.le_div_iff_mul_le unitsOfOne_pos]
  exact Nat.le_trans hcut (Nat.le_mul_of_pos_left _ (units_pos h))

theorem whole_lt_top (x : Binary64) : whole x < 10 ^ (cut + 309) := by
  have htop : 2 ^ (53 + topPower) * 10 ^ cut ≤ 10 ^ (cut + 309) * unitsOfOne := by
    decide +kernel
  have hcut : 0 < 10 ^ cut := by decide +kernel
  rw [whole_eq, Nat.div_lt_iff_lt_mul unitsOfOne_pos]
  exact Nat.lt_of_lt_of_le (Nat.mul_lt_mul_of_pos_right x.units_lt hcut) htop

theorem le_length (h : x.rank ≠ 0) : 20 ≤ length x := by
  have hlt := Nat.lt_of_le_of_lt (le_whole h) (whole_lt x)
  exact (Nat.pow_lt_pow_iff_right (by decide)).mp hlt

/-- The first digit of the magnitude is not zero. -/
theorem pow_le_whole (h : x.rank ≠ 0) : 10 ^ (length x - 1) ≤ whole x := by
  have hlength := le_length h
  by_contra hless
  have hle := (Nat.length_toDigits_le_iff (by decide) (by omega)).mpr (Nat.lt_of_not_le hless)
  rw [← length] at hle
  omega

theorem length_le (h : x.rank ≠ 0) : length x ≤ cut + 309 := by
  have hlt := Nat.lt_of_le_of_lt (pow_le_whole h) (whole_lt_top x)
  have hpower := (Nat.pow_lt_pow_iff_right (by decide)).mp hlt
  omega

/-- What is close to a number on the grid of seventeen digits reads back as it. -/
theorem readsBack_of_isClose (h : x.rank ≠ 0) {n : Nat} (hlow : 10 ^ 16 ≤ n)
    (hhigh : n ≤ 10 ^ 17) (hclose : x.IsClose (10 ^ (length x - 17) * n) (10 ^ cut)) :
    readsBack x ⟨n, (length x : Int) - (17 : Nat) - cut⟩ = true := by
  have hlength := le_length h
  have htop := length_le h
  have hexponent : (length x : Int) - (17 : Nat) - cut =
      -(cut : Int) + (length x - 17 : Nat) := by omega
  rw [readsBack_iff, hexponent, ← ofDecimal?_mul_pow]
  apply hclose.ofDecimal?_eq
  · calc 10 ^ 19 ≤ 10 ^ (length x - 17 + 16) := Nat.pow_le_pow_right (by decide) (by omega)
      _ = 10 ^ (length x - 17) * 10 ^ 16 := Nat.pow_add _ _ _
      _ ≤ 10 ^ (length x - 17) * n := Nat.mul_le_mul_left _ hlow
  · calc 10 ^ (length x - 17) * n ≤ 10 ^ (length x - 17) * 10 ^ 17 := Nat.mul_le_mul_left _ hhigh
      _ = 10 ^ (length x - 17 + 17) := (Nat.pow_add _ _ _).symm
      _ < 10 ^ (cut + 310) := Nat.pow_lt_pow_right (by decide) (by omega)

theorem not_readsBack_of_onGrid_eq_none {tie : Tie} {count : Nat} (h : onGrid tie x count = none) :
    readsBack x ⟨whole x / 10 ^ (length x - count), (length x : Int) - count - cut⟩ ≠ true ∧
      readsBack x ⟨whole x / 10 ^ (length x - count) + 1, (length x : Int) - count - cut⟩ ≠
        true := by
  unfold onGrid at h
  extract_lets exact step low exponent below above toBelow toAbove at h
  show readsBack x below ≠ true ∧ readsBack x above ≠ true
  clear_value below above toBelow toAbove
  by_cases hbelow : readsBack x below = true <;> by_cases habove : readsBack x above = true <;>
    simp [hbelow, habove] at h ⊢

/-- Seventeen digits always suffice. -/
theorem onGrid_seventeen_ne_none (tie : Tie) (h : x.rank ≠ 0) : onGrid tie x 17 ≠ none := by
  intro hnone
  replace hnone := not_readsBack_of_onGrid_eq_none hnone
  have hlength := le_length h
  obtain ⟨unit, hunit⟩ : ∃ unit, 10 ^ (length x - 17) = unit := ⟨_, rfl⟩
  obtain ⟨low, hlow⟩ : ∃ low, whole x / unit = low := ⟨_, rfl⟩
  have hunit_pos : 0 < unit := hunit ▸ Nat.pow_pos (by decide)
  have hlow_ge : 10 ^ 16 ≤ low := by
    rw [← hlow, Nat.le_div_iff_mul_le hunit_pos, ← hunit, ← Nat.pow_add]
    have hpower : 16 + (length x - 17) = length x - 1 := by omega
    rw [hpower]
    exact pow_le_whole h
  have hlow_lt : low < 10 ^ 17 := by
    rw [← hlow, ← hunit]
    exact low_lt x 17
  -- the magnitude lies between its neighbours, in a gap that is small beside it
  obtain ⟨exact, hexact⟩ : ∃ exact, x.units * 10 ^ cut = exact := ⟨_, rfl⟩
  obtain ⟨gap, hgap⟩ : ∃ gap, unit * unitsOfOne = gap := ⟨_, rfl⟩
  have hwhole : whole x = exact / unitsOfOne := by rw [whole_eq, hexact]
  have hbelow : low * gap ≤ exact := by
    rw [← hgap, ← Nat.mul_assoc, ← Nat.le_div_iff_mul_le unitsOfOne_pos, ← hwhole, ← hlow]
    exact Nat.div_mul_le_self _ _
  have habove : exact < low * gap + gap := by
    rw [← Nat.succ_mul, ← hgap, ← Nat.mul_assoc, ← Nat.div_lt_iff_lt_mul unitsOfOne_pos,
      ← hwhole, ← Nat.div_lt_iff_lt_mul hunit_pos, hlow]
    exact Nat.lt_succ_self low
  have hsmall : 10 ^ 16 * gap ≤ exact := Nat.le_trans (Nat.mul_le_mul_right gap hlow_ge) hbelow
  have hscale (n : Nat) : 10 ^ (length x - 17) * n * unitsOfOne = n * gap := by
    rw [hunit, ← hgap, Nat.mul_comm unit, Nat.mul_assoc]
  have hcloseness : closeness = 2 * 10 ^ 16 := rfl
  have hcut : 0 < 10 ^ cut := by decide +kernel
  rw [hunit, hlow] at hnone
  rcases Nat.le_total (2 * (exact - low * gap)) gap with hnear | hnear
  · have hread := readsBack_of_isClose h hlow_ge (Nat.le_of_lt hlow_lt)
      ⟨hcut, by rw [hscale, hexact, hcloseness]; omega,
        by rw [hscale, hexact, hcloseness]; omega⟩
    exact hnone.1 hread
  · have hsucc : (low + 1) * gap = low * gap + gap := Nat.succ_mul low gap
    have hread := readsBack_of_isClose h (n := low + 1) (Nat.le_add_right_of_le hlow_ge) hlow_lt
      ⟨hcut, by rw [hscale, hexact, hcloseness, hsucc]; omega,
        by rw [hscale, hexact, hcloseness, hsucc]; omega⟩
    exact hnone.2 hread

theorem exists_mem_grids (tie : Tie) (h : x.rank ≠ 0) :
    ∃ d, ((List.range 17).findSome? fun n => onGrid tie x (n + 1)) = some d := by
  apply Option.ne_none_iff_exists'.mp
  rw [Ne, List.findSome?_eq_none_iff]
  intro hall
  exact onGrid_seventeen_ne_none tie h (hall 16 (by decide))

/-- The digits found for a number read back as it, and are few. -/
theorem readsBack_shortest (tie : Tie) (x : Binary64) :
    readsBack x (shortest tie x) = true ∧ (shortest tie x).digits ≤ 10 ^ 17 := by
  by_cases hrank : x.rank = 0
  · rw [shortest, if_pos hrank]
    refine ⟨?_, by decide⟩
    rw [readsBack_iff]
    show ofRank? x.negative 0 = some x
    rw [← hrank, ofRank?_rank]
  · obtain ⟨d, hd⟩ := exists_mem_grids tie hrank
    rw [shortest, if_neg hrank, hd, Option.getD_some]
    obtain ⟨n, hn, hgrid⟩ := List.exists_of_findSome?_eq_some hd
    obtain ⟨hread, hdigits⟩ := readsBack_of_onGrid hgrid
    have hn' : n < 17 := List.mem_range.mp hn
    refine ⟨?_, ?_⟩
    · rw [readsBack_iff, ofDecimal?_strip, ← readsBack_iff]
      exact hread
    · calc (strip 400 d).digits ≤ d.digits := strip_digits_le 400 d
        _ ≤ 10 ^ (n + 1) := hdigits
        _ ≤ 10 ^ 17 := Nat.pow_le_pow_right (by decide) hn'

/-- Only the number zero has no digits but zeros, and its power of ten is none. -/
theorem exponent_shortest {tie : Tie} (h : (shortest tie x).digits = 0) :
    (shortest tie x).exponent = 0 := by
  by_cases hrank : x.rank = 0
  · rw [shortest, if_pos hrank]
  · have hread := readsBack_iff.mp (readsBack_shortest tie x).1
    rw [h, ofDecimal?, if_pos (.inl rfl)] at hread
    have hzero : (⟨x.negative, 0, by decide⟩ : Binary64) = x := Option.some.inj hread
    exact absurd (congrArg rank hzero).symm hrank

end Decimal

end Runbook
