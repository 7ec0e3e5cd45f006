import Mathlib.Data.List.TakeWhile
import Mathlib.Tactic.Common
import Runbook.Json.Token
import Runbook.Proofs.Rounding
import Runbook.Proofs.TextLines

/-!
Numbers as they are written and lexed. A written number is spelled by its digits before the point,
after it and in the exponent; lexing finds these parts again, and they stand for the decimal that
was laid out. Since that decimal reads back, so does the number.
-/
namespace Runbook

namespace Json.Token

theorem digitsValue_eq (digits : List Char) : digitsValue digits = Nat.ofDigitChars 10 digits 0 :=
  rfl

theorem digitsValue_toDigits (n : Nat) : digitsValue (Nat.toDigits 10 n) = n :=
  Nat.ofDigitChars_ten_toDigits

theorem digitsValue_replicate_append (k : Nat) (digits : List Char) :
    digitsValue (List.replicate k '0' ++ digits) = digitsValue digits := by
  rw [digitsValue_eq, Nat.ofDigitChars_append, Nat.ofDigitChars_replicate_zero]
  rfl

theorem digitsValue_append_replicate (digits : List Char) (k : Nat) :
    digitsValue (digits ++ List.replicate k '0') = 10 ^ k * digitsValue digits := by
  rw [digitsValue_eq, Nat.ofDigitChars_append, Nat.ofDigitChars_replicate_zero]
  rfl

/-- Zeros before all other digits count for nothing. -/
theorem exists_replicate_append_dropWhile (digits : List Char) :
    ∃ k, digits = List.replicate k '0' ++ digits.dropWhile (· = '0') := by
  refine ⟨(digits.takeWhile (· = '0')).length, ?_⟩
  have hzeros : digits.takeWhile (· = '0') =
      List.replicate (digits.takeWhile (· = '0')).length '0' := by
    apply List.eq_replicate_of_mem
    intro c hc
    simpa using List.mem_takeWhile_imp hc
  rw [← hzeros]
  exact (List.takeWhile_append_dropWhile).symm

theorem digitsValue_dropWhile (digits : List Char) :
    digitsValue (digits.dropWhile (· = '0')) = digitsValue digits := by
  obtain ⟨k, hk⟩ := exists_replicate_append_dropWhile digits
  conv_rhs => rw [hk]
  rw [digitsValue_replicate_append]

/-- Digits within the limit stand for the number that they spell. -/
theorem ofDecimal?_decimalOf {digits fraction : List Char}
    (hlimit : digits.length + fraction.length ≤ digitLimit) (negative : Bool) (exponent : Int) :
    Binary64.ofDecimal? negative (decimalOf digits fraction).1
        (exponent + (decimalOf digits fraction).2) =
      Binary64.ofDecimal? negative (digitsValue (digits ++ fraction))
        (exponent - fraction.length) := by
  obtain ⟨k, hk⟩ := exists_replicate_append_dropWhile fraction.reverse
  obtain ⟨kept, hkept⟩ : ∃ kept, (fraction.reverse.dropWhile (· = '0')).reverse = kept :=
    ⟨_, rfl⟩
  have hfraction : fraction = kept ++ List.replicate k '0' := by
    rw [← List.reverse_reverse fraction, hk, List.reverse_append, hkept, List.reverse_replicate]
  have hlength : ((digits ++ kept).dropWhile (· = '0')).length ≤ digitLimit := by
    have hdrop := dropWhile_length_le (· = '0') (digits ++ kept)
    have hall : fraction.length = kept.length + k := by
      rw [hfraction, List.length_append, List.length_replicate]
    rw [List.length_append] at hdrop
    omega
  unfold decimalOf
  simp only [hkept]
  rw [if_neg (by omega), digitsValue_dropWhile]
  rw [hfraction, ← List.append_assoc, digitsValue_append_replicate, Binary64.ofDecimal?_mul_pow]
  congr 1
  rw [List.length_append, List.length_replicate]
  omega

def EndsNumber (rest : List Char) : Prop :=
  ∀ c ∈ rest.head?, c.isDigit = false ∧ c ≠ '.' ∧ c ≠ 'e' ∧ c ≠ 'E'

/-- A number by its parts: the digits before the point and after it, and the sign and the digits of
the exponent. -/
structure Spelling where
  digits : List Char
  fraction : Option (List Char)
  exponent : Option (Bool × List Char)

namespace Spelling

def chars (s : Spelling) : List Char :=
  s.digits ++ (s.fraction.elim [] fun digits => '.' :: digits) ++
    s.exponent.elim [] fun e => 'e' :: (if e.1 then '-' else '+') :: e.2

def power (s : Spelling) : Option Int :=
  s.exponent.map fun e => if e.1 then -digitsValue e.2 else digitsValue e.2

/-- All parts are digits, none is empty, and a zero before the point stands alone. -/
structure Valid (s : Spelling) : Prop where
  digits_ne : s.digits ≠ []
  digits_all : ∀ c ∈ s.digits, c.isDigit = true
  lead : s.digits.length = 1 ∨ s.digits.head? ≠ some '0'
  fraction_ne : s.fraction ≠ some []
  fraction_all : ∀ digits ∈ s.fraction, ∀ c ∈ digits, c.isDigit = true
  exponent_ne : ∀ e ∈ s.exponent, e.2 ≠ []
  exponent_all : ∀ e ∈ s.exponent, ∀ c ∈ e.2, c.isDigit = true

end Spelling

/-- Digits up to something else are taken whole. -/
theorem lexFraction_of_ends {rest : List Char} (hrest : EndsNumber rest) :
    lexFraction rest = .ok (none, rest) := by
  unfold lexFraction
  split
  · exact absurd rfl (hrest '.' rfl).2.1
  · rfl

theorem lexExponent_of_ends {rest : List Char} (hrest : EndsNumber rest) :
    lexExponent rest = .ok (none, rest) := by
  cases rest with
  | nil => rfl
  | cons c rest =>
    obtain ⟨-, -, hlower, hupper⟩ := hrest c rfl
    rw [lexExponent, if_neg (by simp [hlower, hupper])]

theorem lexExponent_append {s : Spelling} (h : s.Valid) {rest : List Char}
    (hrest : EndsNumber rest) :
    lexExponent ((s.exponent.elim [] fun e => 'e' :: (if e.1 then '-' else '+') :: e.2) ++ rest) =
      .ok (s.power, rest) := by
  cases hexponent : s.exponent with
  | none => simpa [Spelling.power, hexponent] using lexExponent_of_ends hrest
  | some e =>
    obtain ⟨negative, digits⟩ := e
    have hne : digits ≠ [] := h.exponent_ne _ hexponent
    obtain ⟨htake, hdrop⟩ := Text.span_append (h.exponent_all _ hexponent)
      (fun c hc => (hrest c hc).1)
    have hsign : lexSign ((if negative then '-' else '+') :: (digits ++ rest)) =
        (negative, digits ++ rest) := by cases negative <;> rfl
    show lexExponent ('e' :: (if negative then '-' else '+') :: (digits ++ rest)) = _
    rw [lexExponent, if_pos (.inl rfl), hsign]
    simp [htake, hdrop, hne, Spelling.power, hexponent]

theorem isDigit_head?_exponent (e : Option (Bool × List Char)) {rest : List Char}
    (hrest : EndsNumber rest) :
    ∀ c ∈ ((e.elim [] fun e => 'e' :: (if e.1 then '-' else '+') :: e.2) ++ rest).head?,
      c.isDigit = false := by
  cases e with
  | none => exact fun c hc => (hrest c hc).1
  | some e =>
    intro c hc
    obtain rfl : 'e' = c := by simpa using hc
    decide

theorem lexFraction_append {s : Spelling} (h : s.Valid) {rest : List Char}
    (hrest : EndsNumber rest) :
    let after := (s.exponent.elim [] fun e => 'e' :: (if e.1 then '-' else '+') :: e.2) ++ rest
    lexFraction ((s.fraction.elim [] fun digits => '.' :: digits) ++ after) =
      .ok (s.fraction, after) := by
  intro after
  cases hfraction : s.fraction with
  | none =>
    cases hexponent : s.exponent with
    | none => simpa [after, hexponent] using lexFraction_of_ends hrest
    | some e => simp [after, hexponent, lexFraction]
  | some digits =>
    have hne : digits ≠ [] := fun hnil => h.fraction_ne (by rw [hfraction, hnil])
    obtain ⟨htake, hdrop⟩ := Text.span_append (h.fraction_all _ hfraction)
      (isDigit_head?_exponent s.exponent hrest)
    show lexFraction ('.' :: (digits ++ after)) = _
    rw [lexFraction]
    simp [after, htake, hdrop, hne]

/-- Lexing finds the parts of a spelled number again. -/
theorem lexNumber_chars {s : Spelling} (h : s.Valid) (negative : Bool) {rest : List Char}
    (hrest : EndsNumber rest) :
    lexNumber negative (s.chars ++ rest) =
      (numberOf negative s.digits s.fraction s.power, rest) := by
  have hfraction := lexFraction_append h hrest
  have hexponent := lexExponent_append h hrest
  have hhead : ∀ c ∈ ((s.fraction.elim [] fun digits => '.' :: digits) ++
      ((s.exponent.elim [] fun e => 'e' :: (if e.1 then '-' else '+') :: e.2) ++ rest)).head?,
      c.isDigit = false := by
    cases s.fraction with
    | none => exact isDigit_head?_exponent s.exponent hrest
    | some digits =>
      intro c hc
      obtain rfl : '.' = c := by simpa using hc
      decide
  obtain ⟨htake, hdrop⟩ := Text.span_append h.digits_all hhead
  simp only [Spelling.chars, List.append_assoc, lexNumber, htake, hdrop]
  split
  · rename_i hnil
    exact absurd hnil h.digits_ne
  · rename_i hzero
    rcases h.lead with hone | hlead
    · simp [hzero] at hone
    · simp [hzero] at hlead
  · rw [hfraction]
    simp only
    rw [hexponent]

/-- With a point or an exponent the parts spell the number that their decimal reads as. -/
theorem numberOf_eq_decimal {x : Binary64} {s : Spelling}
    (hmarked : s.fraction.isSome = true ∨ s.exponent.isSome = true)
    (hlimit : s.digits.length + (s.fraction.getD []).length ≤ digitLimit)
    (hread : Binary64.ofDecimal? x.negative (digitsValue (s.digits ++ s.fraction.getD []))
      (s.power.getD 0 - (s.fraction.getD []).length) = some x) :
    numberOf x.negative s.digits s.fraction s.power = .good (.decimal x) := by
  rw [← ofDecimal?_decimalOf hlimit] at hread
  unfold numberOf
  simp only [hread]
  split
  · rename_i hfraction hpower
    simp [hfraction, Spelling.power] at hmarked hpower
    simp [hpower] at hmarked
  · rfl

/-- The first digit of a number is not zero, unless the number is. -/
theorem head?_toDigits_ne {n : Nat} (hn : n ≠ 0) : (Nat.toDigits 10 n).head? ≠ some '0' := by
  induction n using Nat.strongRecOn with
  | ind n ih =>
    rw [Nat.toDigits_eq_if (by decide)]
    split
    · simpa using hn
    · have hfront := ih (n / 10) (by omega) (by omega)
      obtain ⟨c, more, hcons⟩ := List.exists_cons_of_ne_nil (Nat.toDigits_ne_nil (n := n / 10))
      rw [hcons] at hfront ⊢
      exact hfront

theorem ne_of_isDigit {c d : Char} (hc : c.isDigit = true) (hd : d.isDigit = false) : c ≠ d := by
  rintro rfl
  rw [hc] at hd
  exact Bool.noConfusion hd

theorem isDigit_toDigits {n : Nat} {c : Char} (hc : c ∈ Nat.toDigits 10 n) : c.isDigit = true :=
  Nat.isDigit_of_mem_toDigits (by decide) (by decide) hc

/-- A whole number is its sign and the digits of its magnitude. -/
theorem signed_toDigits (power : Int) :
    (if decide (power < 0) = true then -(digitsValue (Nat.toDigits 10 power.natAbs) : Int)
      else digitsValue (Nat.toDigits 10 power.natAbs)) = power := by
  rw [digitsValue_toDigits]
  split
  · rename_i hneg
    have hless : power < 0 := by simpa using hneg
    omega
  · rename_i hpos
    have hmost : 0 ≤ power := by simpa using hpos
    omega

end Json.Token

open Json.Token

namespace Layout

/-- A text spells a decimal: its parts are valid and few, and stand for it. -/
structure Spells (s : Spelling) (d : Decimal) : Prop where
  valid : s.Valid
  marked : s.fraction.isSome = true ∨ s.exponent.isSome = true
  short : s.digits.length + (s.fraction.getD []).length ≤ digitLimit
  reads : ∀ negative,
    Binary64.ofDecimal? negative (digitsValue (s.digits ++ s.fraction.getD []))
        (s.power.getD 0 - (s.fraction.getD []).length) =
      Binary64.ofDecimal? negative d.digits d.exponent

theorem length_digits_le {d : Decimal} (hdigits : d.digits ≤ 10 ^ 17) :
    (Nat.toDigits 10 d.digits).length ≤ 18 :=
  (Nat.length_toDigits_le_iff (by decide) (by decide)).mpr (by omega)

theorem exists_spells_scientific {d : Decimal} (hdigits : d.digits ≤ 10 ^ 17) :
    ∃ s : Spelling, s.chars = scientificText d ∧ Spells s d := by
  have hlength := length_digits_le hdigits
  have hlimit : digitLimit = 768 := rfl
  obtain ⟨c, more, hcons⟩ := List.exists_cons_of_ne_nil (Nat.toDigits_ne_nil (n := d.digits))
  have hvalue : digitsValue (c :: more) = d.digits := by rw [← hcons, digitsValue_toDigits]
  have hall : ∀ a ∈ c :: more, a.isDigit = true := by
    rw [← hcons]
    exact fun a => isDigit_toDigits
  obtain ⟨power, hpower⟩ : ∃ power : Int, d.exponent + (c :: more).length - 1 = power := ⟨_, rfl⟩
  -- one digit alone has no point behind it
  obtain ⟨fraction, hfraction⟩ : ∃ fraction,
      more = [] ∧ fraction = none ∨ more ≠ [] ∧ fraction = some more := by
    by_cases hmore : more = []
    · exact ⟨none, .inl ⟨hmore, rfl⟩⟩
    · exact ⟨some more, .inr ⟨hmore, rfl⟩⟩
  have hmore : fraction.getD [] = more := by
    rcases hfraction with ⟨rfl, rfl⟩ | ⟨-, rfl⟩ <;> rfl
  refine ⟨⟨[c], fraction, some (decide (power < 0), Nat.toDigits 10 power.natAbs)⟩, ?_,
    ⟨⟨by simp, fun a ha => hall a (by simp_all), .inl rfl, ?_, ?_, ?_, ?_⟩, .inr rfl, ?_,
      fun negative => ?_⟩⟩
  · simp only [Spelling.chars, scientificText, hcons, hpower]
    rcases hfraction with ⟨rfl, rfl⟩ | ⟨hne, rfl⟩
    · simp
    · obtain ⟨next, later, rfl⟩ := List.exists_cons_of_ne_nil hne
      simp
  · rcases hfraction with ⟨-, rfl⟩ | ⟨hne, rfl⟩
    · simp
    · simpa using hne
  · intro digits hsome a ha
    rcases hfraction with ⟨-, rfl⟩ | ⟨-, rfl⟩
    · simp at hsome
    · obtain rfl : more = digits := by simpa using hsome
      exact hall a (List.mem_cons_of_mem c ha)
  · rintro e ⟨⟩
    exact Nat.toDigits_ne_nil
  · rintro e ⟨⟩
    exact fun a => isDigit_toDigits
  · rw [hcons] at hlength
    simp only [hmore, List.length_cons, List.length_nil] at hlength ⊢
    omega
  · simp only [hmore, Spelling.power, Option.map_some, Option.getD_some, signed_toDigits]
    rw [List.singleton_append, hvalue]
    congr 1
    simp only [List.length_cons] at hpower
    omega

/-- The digits of a decimal with zeros before them. -/
theorem digitsValue_padded (k : Nat) (d : Decimal) :
    digitsValue (List.replicate k '0' ++ Nat.toDigits 10 d.digits) = d.digits := by
  rw [digitsValue_replicate_append, digitsValue_toDigits]

theorem isDigit_padded {k : Nat} {d : Decimal} {c : Char}
    (hc : c ∈ List.replicate k '0' ++ Nat.toDigits 10 d.digits) : c.isDigit = true := by
  rcases List.mem_append.mp hc with hc | hc
  · rw [List.eq_of_mem_replicate hc]
    decide
  · exact isDigit_toDigits hc

/-- Digits with zeros behind them, which is how a whole number is spelled. -/
theorem valid_scaled {n k : Nat} (hzero : n = 0 → k = 0) {fraction : Option (List Char)}
    (hfraction : fraction = none ∨ fraction = some ['0']) :
    (⟨Nat.toDigits 10 n ++ List.replicate k '0', fraction, none⟩ : Spelling).Valid where
  digits_ne := by simp [Nat.toDigits_ne_nil]
  digits_all := by
    intro c hc
    rcases List.mem_append.mp hc with hc | hc
    · exact isDigit_toDigits hc
    · rw [List.eq_of_mem_replicate hc]
      decide
  lead := by
    by_cases hn : n = 0
    · left
      simp [hn, hzero hn]
    · right
      obtain ⟨c, more, hcons⟩ := List.exists_cons_of_ne_nil (Nat.toDigits_ne_nil (n := n))
      have hlead := head?_toDigits_ne hn
      rw [hcons] at hlead ⊢
      exact hlead
  fraction_ne := by rcases hfraction with rfl | rfl <;> simp
  fraction_all := by rcases hfraction with rfl | rfl <;> simp
  exponent_ne := by simp
  exponent_all := by simp

/-- A decimal without places behind the point, which is not zero unless it is the number zero. -/
theorem exists_spells_whole {d : Decimal} (hexponent : 0 ≤ d.exponent)
    (hpower : d.exponent + (Nat.toDigits 10 d.digits).length ≤ 16)
    (hzero : d.digits = 0 → d.exponent = 0) :
    ∃ s : Spelling, s.chars = positionalText true d ∧ Spells s d := by
  have hlimit : digitLimit = 768 := rfl
  refine ⟨⟨Nat.toDigits 10 d.digits ++ List.replicate d.exponent.toNat '0', some ['0'], none⟩, ?_,
    ⟨valid_scaled (fun h => by rw [hzero h]; rfl) (.inr rfl), .inl rfl, ?_, fun negative => ?_⟩⟩
  · simp [Spelling.chars, positionalText, hexponent]
  · simp only [List.length_append, List.length_replicate, Option.getD_some, List.length_cons,
      List.length_nil]
    omega
  · have hdigits : Nat.toDigits 10 d.digits ++ List.replicate d.exponent.toNat '0' ++ ['0'] =
        Nat.toDigits 10 d.digits ++ List.replicate (d.exponent.toNat + 1) '0' := by
      rw [List.append_assoc, List.replicate_succ']
    simp only [Option.getD_some, Spelling.power, Option.map_none, Option.getD_none, hdigits,
      digitsValue_append_replicate, digitsValue_toDigits, Binary64.ofDecimal?_mul_pow]
    congr 1
    simp only [List.length_cons, List.length_nil]
    omega

/-- A decimal with places behind the point. -/
theorem exists_valid_places {d : Decimal} (hexponent : d.exponent < 0) (pointZero : Bool) :
    ∃ whole places : List Char, positionalText pointZero d = whole ++ '.' :: places ∧
      (⟨whole, some places, none⟩ : Spelling).Valid ∧
      places.length = (-d.exponent).toNat ∧ digitsValue (whole ++ places) = d.digits ∧
      whole.length ≤ (Nat.toDigits 10 d.digits).length + 1 := by
  obtain ⟨places, hplaces⟩ : ∃ places, (-d.exponent).toNat = places := ⟨_, rfl⟩
  obtain ⟨zeros, hzeros⟩ : ∃ zeros, places + 1 - (Nat.toDigits 10 d.digits).length = zeros :=
    ⟨_, rfl⟩
  obtain ⟨padded, hpadded⟩ : ∃ padded,
      List.replicate zeros '0' ++ Nat.toDigits 10 d.digits = padded := ⟨_, rfl⟩
  have hcount : padded.length = zeros + (Nat.toDigits 10 d.digits).length := by
    rw [← hpadded, List.length_append, List.length_replicate]
  have hall : ∀ c ∈ padded, c.isDigit = true := by
    rw [← hpadded]
    exact fun c => isDigit_padded
  have hsplit : padded.take (padded.length - places) ++ padded.drop (padded.length - places) =
      padded := List.take_append_drop _ _
  refine ⟨padded.take (padded.length - places), padded.drop (padded.length - places), ?_,
    ⟨?_, fun c hc => hall c (List.mem_of_mem_take hc), ?_, ?_, ?_, by simp, by simp⟩, ?_, ?_, ?_⟩
  · simp [positionalText, not_le.mpr hexponent, hplaces, hzeros, hpadded]
  · rw [Ne, List.take_eq_nil_iff, not_or]
    refine ⟨by omega, ?_⟩
    rw [← List.length_eq_zero_iff]
    omega
  · by_cases hfew : zeros = 0
    · -- nothing was padded, so the first digit is that of the decimal
      right
      have hne : d.digits ≠ 0 := by
        intro hzero
        rw [hzero] at hzeros
        simp at hzeros
        omega
      have hwhole : padded = Nat.toDigits 10 d.digits := by
        rw [← hpadded, hfew]
        rfl
      rw [List.head?_take, if_neg (by omega), hwhole]
      exact head?_toDigits_ne hne
    · left
      rw [List.length_take]
      omega
  · simp only [ne_eq, Option.some.injEq, List.drop_eq_nil_iff]
    omega
  · rintro digits ⟨⟩
    exact fun c hc => hall c (List.mem_of_mem_drop hc)
  · rw [List.length_drop]
    omega
  · rw [hsplit, ← hpadded, digitsValue_padded]
  · rw [List.length_take]
    omega

theorem exists_spells_places {d : Decimal} (hdigits : d.digits ≤ 10 ^ 17)
    (hexponent : d.exponent < 0)
    (hpower : -5 < d.exponent + (Nat.toDigits 10 d.digits).length) :
    ∃ s : Spelling, s.chars = positionalText true d ∧ Spells s d := by
  have hlimit : digitLimit = 768 := rfl
  have hlength := length_digits_le hdigits
  obtain ⟨whole, places, hchars, hvalid, hplaces, hvalue, hwhole⟩ :=
    exists_valid_places hexponent true
  refine ⟨⟨whole, some places, none⟩, ?_, ⟨hvalid, .inl rfl, ?_, fun negative => ?_⟩⟩
  · simp [Spelling.chars, hchars]
  · simp only [Option.getD_some]
    omega
  · simp only [Option.getD_some, Spelling.power, Option.map_none, Option.getD_none, hvalue]
    congr 1
    omega

/-- A number in data is spelled by its shortest digits. -/
theorem exists_spells_data (x : Binary64) : ∃ s : Spelling,
    data.text x = (if x.negative then '-' :: s.chars else s.chars) ∧
      Spells s (Decimal.shortest .toEven x) := by
  obtain ⟨d, hd⟩ : ∃ d, Decimal.shortest .toEven x = d := ⟨_, rfl⟩
  have hdigits : d.digits ≤ 10 ^ 17 := hd ▸ (Decimal.readsBack_shortest .toEven x).2
  have hzero : d.digits = 0 → d.exponent = 0 := hd ▸ Decimal.exponent_shortest
  have hspells : ∃ s : Spelling, s.chars = (if data.positional
      (d.exponent + (Nat.toDigits 10 d.digits).length - 1) = true then
        positionalText data.pointZero d else scientificText d) ∧ Spells s d := by
    split
    · rename_i hpositional
      have hpower : -5 ≤ d.exponent + (Nat.toDigits 10 d.digits).length - 1 ∧
          d.exponent + (Nat.toDigits 10 d.digits).length - 1 < 16 := of_decide_eq_true hpositional
      rcases Int.lt_or_le d.exponent 0 with hneg | hpos
      · exact exists_spells_places hdigits hneg (by omega)
      · exact exists_spells_whole hpos (by omega) hzero
    · exact exists_spells_scientific hdigits
  obtain ⟨s, hchars, hs⟩ := hspells
  refine ⟨s, ?_, hd ▸ hs⟩
  rw [hchars, ← hd]
  rfl

/-- A number in a script is spelled without an exponent. -/
theorem exists_valid_script (x : Binary64) : ∃ s : Spelling,
    script.text x = (if x.negative then '-' :: s.chars else s.chars) ∧ s.Valid ∧
      s.exponent = none ∧
      Binary64.ofDecimal? x.negative (digitsValue (s.digits ++ s.fraction.getD []))
        (-(s.fraction.getD []).length) = some x := by
  obtain ⟨d, hd⟩ : ∃ d, Decimal.shortest .up x = d := ⟨_, rfl⟩
  have hread := Decimal.readsBack_iff.mp (Decimal.readsBack_shortest .up x).1
  have hzero : d.digits = 0 → d.exponent = 0 := hd ▸ Decimal.exponent_shortest
  have htext : script.text x =
      if x.negative then '-' :: positionalText false d else positionalText false d := by
    rw [← hd]
    rfl
  rw [hd] at hread
  rw [htext]
  rcases Int.lt_or_le d.exponent 0 with hneg | hpos
  · obtain ⟨whole, places, hchars, hvalid, hplaces, hvalue, -⟩ := exists_valid_places hneg false
    refine ⟨⟨whole, some places, none⟩, by simp [Spelling.chars, hchars], hvalid, rfl, ?_⟩
    rw [← hread, Option.getD_some, hvalue]
    congr 1
    omega
  · refine ⟨⟨Nat.toDigits 10 d.digits ++ List.replicate d.exponent.toNat '0', none, none⟩, ?_,
      valid_scaled (fun h => by rw [hzero h]; rfl) (.inl rfl), rfl, ?_⟩
    · simp [Spelling.chars, positionalText, hpos]
    · rw [← hread, Option.getD_none, List.append_nil, digitsValue_append_replicate,
        digitsValue_toDigits, Binary64.ofDecimal?_mul_pow]
      congr 1
      simp only [List.length_nil]
      omega

end Layout

namespace Json

def Number.InWord : Number → Prop
  | .whole n => 2 * -n ≤ UInt64.size ∧ n < UInt64.size
  | .decimal _ => True

namespace Token

theorem lexOne_digit {c : Char} (hc : c.isDigit = true) (s : List Char) :
    lexOne c s = (.number (lexNumber false (c :: s)).1, (lexNumber false (c :: s)).2) := by
  have hne (d : Char) (hd : d.isDigit = false) : c ≠ d := ne_of_isDigit hc hd
  rw [lexOne, if_neg (hne _ rfl), if_neg (hne _ rfl), if_neg (hne _ rfl), if_neg (hne _ rfl),
    if_neg (hne _ rfl), if_neg (hne _ rfl), if_neg (hne _ rfl), if_neg (hne _ rfl),
    if_neg (hne _ rfl), if_neg (hne _ rfl), if_neg (hne _ rfl), if_pos hc]

theorem isSpace_eq_false_of_isDigit {c : Char} (hc : c.isDigit = true) : isSpace c = false := by
  have hne (d : Char) (hd : d.isDigit = false) : c ≠ d := ne_of_isDigit hc hd
  simp [isSpace, hne ' ' rfl, hne '\n' rfl, hne '\t' rfl, hne '\r' rfl]

theorem lex_signed {negative : Bool} {s : Spelling} (h : s.Valid) {n : Number}
    (hn : numberOf negative s.digits s.fraction s.power = .good n) {rest : List Char}
    (hrest : EndsNumber rest) :
    lex ((if negative then '-' :: s.chars else s.chars) ++ rest) =
      .number (.good n) :: lex rest := by
  have hlex := lexNumber_chars h negative hrest
  rw [hn] at hlex
  cases negative with
  | true =>
    have hone (t : List Char) :
        lexOne '-' t = (.number (lexNumber true t).1, (lexNumber true t).2) := rfl
    show lex ('-' :: (s.chars ++ rest)) = _
    rw [lex, if_neg (by decide), hone, hlex]
  | false =>
    obtain ⟨c, more, hcons⟩ := List.exists_cons_of_ne_nil h.digits_ne
    have hc : c.isDigit = true := h.digits_all c (by simp [hcons])
    obtain ⟨tail, htail⟩ : ∃ tail, s.chars ++ rest = c :: tail :=
      ⟨_, by rw [Spelling.chars, hcons]; rfl⟩
    rw [htail] at hlex
    show lex (s.chars ++ rest) = _
    rw [htail, lex, if_neg (by simp [isSpace_eq_false_of_isDigit hc]), lexOne_digit hc, hlex]

theorem lex_decimal (x : Binary64) {rest : List Char} (hrest : EndsNumber rest) :
    lex (Layout.data.text x ++ rest) = .number (.good (.decimal x)) :: lex rest := by
  obtain ⟨s, htext, hs⟩ := Layout.exists_spells_data x
  have hread := Decimal.readsBack_iff.mp (Decimal.readsBack_shortest .toEven x).1
  rw [htext]
  apply lex_signed hs.valid _ hrest
  apply numberOf_eq_decimal hs.marked hs.short
  rw [hs.reads, hread]

/-- The digits of a whole number as a spelling without point and exponent. -/
theorem valid_whole (n : Nat) : (⟨Nat.toDigits 10 n, none, none⟩ : Spelling).Valid := by
  simpa using Layout.valid_scaled (n := n) (k := 0) (fun _ => rfl) (.inl rfl)

theorem lex_whole {n : Int} (hn : (Number.whole n).InWord) {rest : List Char}
    (hrest : EndsNumber rest) :
    lex (wholeChars n ++ rest) = .number (.good (.whole n)) :: lex rest := by
  have hchars : wholeChars n = if decide (n < 0) = true then
      '-' :: (⟨Nat.toDigits 10 n.natAbs, none, none⟩ : Spelling).chars
      else (⟨Nat.toDigits 10 n.natAbs, none, none⟩ : Spelling).chars := by
    simp [wholeChars, Text.numeralChars, Spelling.chars]
  obtain ⟨hlow, hhigh⟩ := hn
  rw [hchars]
  apply lex_signed (valid_whole n.natAbs) _ hrest
  unfold numberOf
  simp only [digitsValue_toDigits, Spelling.power, Option.map_none]
  by_cases hneg : n < 0
  · rw [if_pos (by simpa using hneg), if_pos (by omega)]
    congr 2
    omega
  · rw [if_neg (by simpa using hneg), if_pos (by omega)]
    congr 2
    omega

/-- A number is lexed as itself. -/
theorem lex_number {n : Number} (hn : n.InWord) {rest : List Char} (hrest : EndsNumber rest) :
    lex (n.chars ++ rest) = .number (.good n) :: lex rest := by
  cases n with
  | whole n => exact lex_whole hn hrest
  | decimal x => exact lex_decimal x hrest

end Token

end Json

end Runbook
