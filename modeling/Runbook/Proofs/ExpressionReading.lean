import Mathlib.Data.List.Basic
import Mathlib.Tactic.Common
import Runbook.Compiler.Expression
import Runbook.Proofs.NumberText
import Runbook.Proofs.ValueText

/-!
Expressions read back. A reader of the script language goes over a text from the left and takes
one expression: a quoted text ends at the first quote without a backslash before it, a list at the
bracket behind a text, a numeral at the first character that is no part of one. What it finds in
the characters of an expression is that expression, whatever follows, so that nothing in a value
can end its expression early or carry it on.
-/
namespace Runbook.Reader

open Json.Token

def expect (word : String) (s : List Char) : Option (List Char) := s.dropPrefix? word.toList

def escaped? (c : Char) : Option Char :=
  if c = '"' ∨ c = '\\' then some c
  else if c = 'n' then some '\n'
  else if c = 'r' then some '\r'
  else if c = 't' then some '\t'
  else none

/-- Reads a text behind its first quote, up to and with its last one. No break may stand in it. -/
def quoted : List Char → Option (List Char × List Char)
  | [] => none
  | '"' :: rest => some ([], rest)
  | '\\' :: 'x' :: a :: b :: rest => do
    let high ← hexDigit? a
    let low ← hexDigit? b
    let (more, rest) ← quoted rest
    pure (Char.ofNat (high * 16 + low) :: more, rest)
  | '\\' :: c :: rest => do
    let d ← escaped? c
    let (more, rest) ← quoted rest
    pure (d :: more, rest)
  | c :: rest =>
    if c = '\n' ∨ c = '\r' then none
    else do
      let (more, rest) ← quoted rest
      pure (c :: more, rest)

def text : List Char → Option (String × List Char)
  | '"' :: s => (quoted s).map fun r => (String.ofList r.1, r.2)
  | _ => none

theorem quoted_length {s more rest : List Char} (h : quoted s = some (more, rest)) :
    rest.length < s.length := by
  fun_induction quoted s generalizing more rest with
  | case1 => simp at h
  | case2 tail =>
    obtain ⟨-, rfl⟩ : [] = more ∧ tail = rest := by simpa using h
    simp
  | case3 a b tail ih =>
    obtain ⟨high, -, low, -, found, hread, -⟩ := by
      simpa [Option.bind_eq_some_iff] using h
    have := ih hread
    simp only [List.length_cons]
    omega
  | case4 c tail _ ih =>
    obtain ⟨d, -, found, hread, -⟩ := by simpa [Option.bind_eq_some_iff] using h
    have := ih hread
    simp only [List.length_cons]
    omega
  | case5 => simp at h
  | case6 c tail _ _ _ _ ih =>
    obtain ⟨found, hread, -⟩ := by simpa [Option.bind_eq_some_iff] using h
    have := ih hread
    simp only [List.length_cons]
    omega

theorem text_length {s rest : List Char} {t : String} (h : text s = some (t, rest)) :
    rest.length < s.length := by
  unfold text at h
  split at h
  · rename_i tail
    obtain ⟨⟨found, after⟩, hread, heq⟩ := Option.map_eq_some_iff.mp h
    obtain rfl : after = rest := congrArg Prod.snd heq
    have := quoted_length hread
    simp only [List.length_cons]
    omega
  · simp at h

def items (s : List Char) : Option (List String × List Char) :=
  match _h : text s with
  | some (item, ']' :: rest) => some ([item], rest)
  | some (item, ',' :: ' ' :: rest) => (items rest).map fun r => (item :: r.1, r.2)
  | _ => none
termination_by s.length
decreasing_by
  have := text_length _h
  simp only [List.length_cons] at this
  omega

def texts : List Char → Option (List String × List Char)
  | '[' :: ']' :: rest => some ([], rest)
  | '[' :: s => items s
  | _ => none

/-- Reads digits. A zero stands alone. -/
def digits (s : List Char) : Option (List Char × List Char) :=
  let found := s.takeWhile Char.isDigit
  if found = [] ∨ found.head? = some '0' ∧ found.length ≠ 1 then none
  else some (found, s.dropWhile Char.isDigit)

def whole (s : List Char) : Option (Nat × List Char) :=
  (digits s).map fun r => (digitsValue r.1, r.2)

def places : List Char → List Char × List Char
  | '.' :: rest =>
    if rest.takeWhile Char.isDigit = [] then ([], '.' :: rest)
    else (rest.takeWhile Char.isDigit, rest.dropWhile Char.isDigit)
  | rest => ([], rest)

def magnitude (negative : Bool) (s : List Char) : Option (Binary64 × List Char) := do
  let (front, s) ← digits s
  let (back, rest) := places s
  let x ← Binary64.ofDecimal? negative (digitsValue (front ++ back)) (-back.length)
  pure (x, rest)

def decimal : List Char → Option (Binary64 × List Char)
  | '-' :: s => magnitude true s
  | s => magnitude false s

def word (s : List Char) : Option (UInt32 × List Char) := do
  let (n, rest) ← whole s
  if n < UInt32.size then some (UInt32.ofNat n, rest) else none

def policy (s : List Char) : Option ((Policy × Option UInt32) × List Char) := do
  let s ← expect "retries=" s
  let (retries, s) ← word s
  let s ← expect ", retry_interval=" s
  let (interval, s) ← word s
  let s ← expect ", on_error=" s
  let (name, s) ← text s
  let onError ← OnError.all.find? fun e => e.name = name
  let s ← expect ", timeout=" s
  match expect "None" s with
  | some rest => some ((⟨retries, interval, onError⟩, none), rest)
  | none => do
    let (timeout, rest) ← word s
    pure ((⟨retries, interval, onError⟩, some timeout), rest)

def secret (s : List Char) : Option ((String × String) × List Char) := do
  let s ← expect "ctx.secret(" s
  let (credential, s) ← text s
  let s ← expect ", " s
  let (name, s) ← text s
  let rest ← expect ")" s
  pure ((credential, name), rest)

/-- Reads one expression. Where a `fractional` one is looked for, a numeral is a decimal. -/
def expression (fractional : Bool) (s : List Char) : Option (Expression × List Char) :=
  match s with
  | '"' :: _ => (text s).map fun r => (.text r.1, r.2)
  | '[' :: _ => (texts s).map fun r => (.texts r.1, r.2)
  | 'c' :: _ => (secret s).map fun r => (.secret r.1.1 r.1.2, r.2)
  | 'r' :: _ => (policy s).map fun r => (.policy r.1.1 r.1.2, r.2)
  | 'N' :: _ => (expect "None" s).map fun rest => (.none, rest)
  | 'T' :: _ => (expect "True" s).map fun rest => (.truth true, rest)
  | 'F' :: _ => (expect "False" s).map fun rest => (.truth false, rest)
  | _ =>
    if fractional then (decimal s).map fun r => (.decimal r.1, r.2)
    else (whole s).map fun r => (.natural r.1, r.2)

theorem expect_append (word : String) (rest : List Char) :
    expect word (word.toList ++ rest) = some rest :=
  List.dropPrefix?_append_of_beq rest (beq_self_eq_true _)

/-- A character is read back from what stands for it between quotes. -/
theorem quoted_escapeChar (c : Char) (rest : List Char) :
    quoted (Expression.escapeChar c ++ rest) = (quoted rest).map fun r => (c :: r.1, r.2) := by
  have hpair : ∀ e, e ≠ 'x' → escaped? e = some c →
      quoted ('\\' :: e :: rest) = (quoted rest).map fun r => (c :: r.1, r.2) := by
    intro e he hescaped
    rw [quoted, hescaped, Option.map_eq_bind]
    · rfl
    · exact fun _ _ _ hx _ => he hx
  unfold Expression.escapeChar
  split_ifs with hquote hback hline hreturn htab hcontrol
  · exact hpair _ (by decide) (by rw [hquote]; rfl)
  · exact hpair _ (by decide) (by rw [hback]; rfl)
  · exact hpair _ (by decide) (by rw [hline]; rfl)
  · exact hpair _ (by decide) (by rw [hreturn]; rfl)
  · exact hpair _ (by decide) (by rw [htab]; rfl)
  · -- the two digits give the code of the control again
    have hbound : c.toNat < 256 := by
      simp only [Expression.isControl, Bool.or_eq_true, Bool.and_eq_true, decide_eq_true_eq]
        at hcontrol
      omega
    have hcode : c.toNat / 16 * 16 + c.toNat % 16 = c.toNat := by omega
    show quoted ('\\' :: 'x' :: Nat.digitChar (c.toNat / 16) :: Nat.digitChar (c.toNat % 16) ::
      rest) = _
    rw [quoted, hexDigit?_digitChar _ (by omega), hexDigit?_digitChar _ (by omega),
      Option.map_eq_bind]
    simp only [Option.bind_eq_bind, Option.bind_some, hcode, Char.ofNat_toNat]
    rfl
  · have hbreak : ¬ (c = '\n' ∨ c = '\r') := not_or.mpr ⟨hline, hreturn⟩
    show quoted (c :: rest) = _
    rw [quoted, if_neg hbreak, Option.map_eq_bind]
    · rfl
    · exact hquote
    · exact fun _ _ _ h _ => hback h
    · exact fun _ _ h _ => hback h

theorem quoted_flatMap_escapeChar (chars rest : List Char) :
    quoted (chars.flatMap Expression.escapeChar ++ '"' :: rest) = some (chars, rest) := by
  induction chars with
  | nil =>
    show quoted ('"' :: rest) = _
    rw [quoted]
  | cons c more ih =>
    rw [List.flatMap_cons, List.append_assoc, quoted_escapeChar, ih, Option.map_some]

/-- A quoted text is read as the text, up to its last quote and no further. -/
theorem text_quote (s : String) (rest : List Char) :
    text (Expression.quote s ++ rest) = some (s, rest) := by
  have hchars : Expression.quote s ++ rest =
      '"' :: (s.toList.flatMap Expression.escapeChar ++ '"' :: rest) := by
    simp [Expression.quote]
  rw [hchars, text, quoted_flatMap_escapeChar, Option.map_some, String.ofList_toList]

theorem items_separated {list : List String} (hne : list ≠ []) (rest : List Char) :
    items (Expression.separated (list.map Expression.quote) ++ ']' :: rest) =
      some (list, rest) := by
  induction list with
  | nil => exact absurd rfl hne
  | cons s more ih =>
    cases more with
    | nil =>
      show items (Expression.quote s ++ ']' :: rest) = _
      rw [items, text_quote]
      rfl
    | cons next more =>
      have hread := text_quote s
        (',' :: ' ' :: (Expression.separated ((next :: more).map Expression.quote) ++ ']' :: rest))
      have hchars : Expression.separated ((s :: next :: more).map Expression.quote) ++ ']' :: rest =
          Expression.quote s ++ ',' :: ' ' ::
            (Expression.separated ((next :: more).map Expression.quote) ++ ']' :: rest) := by
        simp [Expression.separated]
      rw [hchars, items, hread]
      simp only
      rw [ih (List.cons_ne_nil _ _), Option.map_some]

/-- A list of texts is read as the same texts, up to its bracket and no further. -/
theorem texts_chars (list : List String) (rest : List Char) :
    texts ((Expression.texts list).chars ++ rest) = some (list, rest) := by
  rw [Expression.chars_texts]
  cases list with
  | nil => rfl
  | cons s more =>
    obtain ⟨tail, htail⟩ : ∃ tail,
        Expression.separated ((s :: more).map Expression.quote) ++ ']' :: rest = '"' :: tail := by
      cases more <;> exact ⟨_, rfl⟩
    have hitems := items_separated (List.cons_ne_nil s more) rest
    have hchars : '[' :: Expression.separated ((s :: more).map Expression.quote) ++ [']'] ++ rest =
        '[' :: '"' :: tail := by
      simp [← htail]
    rw [htail] at hitems
    rw [hchars]
    exact hitems

theorem digits_append {s : Spelling} (h : s.Valid) {rest : List Char}
    (hrest : ∀ c ∈ rest.head?, c.isDigit = false) :
    digits (s.digits ++ rest) = some (s.digits, rest) := by
  obtain ⟨htake, hdrop⟩ := Text.span_append h.digits_all hrest
  have hgood : ¬ (s.digits = [] ∨ s.digits.head? = some '0' ∧ s.digits.length ≠ 1) := by
    rintro (hnil | ⟨hzero, hmore⟩)
    · exact h.digits_ne hnil
    · rcases h.lead with hone | hlead
      · exact hmore hone
      · exact hlead hzero
  rw [digits, htake, hdrop, if_neg hgood]

/-- A whole number is read up to its last digit. -/
theorem whole_numeralChars (n : Nat) {rest : List Char}
    (hrest : ∀ c ∈ rest.head?, c.isDigit = false) :
    whole (Text.numeralChars n ++ rest) = some (n, rest) := by
  have hread := digits_append (valid_whole n) hrest
  rw [whole, Text.numeralChars, hread, Option.map_some, digitsValue_toDigits]

theorem places_append {s : Spelling} (h : s.Valid) {rest : List Char} (hrest : EndsNumber rest) :
    places ((s.fraction.elim [] fun digits => '.' :: digits) ++ rest) =
      (s.fraction.getD [], rest) := by
  cases hfraction : s.fraction with
  | none =>
    show places rest = ([], rest)
    unfold places
    split
    · exact absurd rfl (hrest '.' rfl).2.1
    · rfl
  | some back =>
    have hback : back ≠ [] := fun hnil => h.fraction_ne (by rw [hfraction, hnil])
    obtain ⟨htake, hdrop⟩ :=
      Text.span_append (h.fraction_all back hfraction) fun c hc => (hrest c hc).1
    show places ('.' :: (back ++ rest)) = (back, rest)
    rw [places, htake, hdrop, if_neg hback]

/-- A spelling without an exponent is read as the number that its digits stand for. -/
theorem magnitude_chars {s : Spelling} (h : s.Valid) (hexponent : s.exponent = none)
    {x : Binary64}
    (hread : Binary64.ofDecimal? x.negative (digitsValue (s.digits ++ s.fraction.getD []))
      (-(s.fraction.getD []).length) = some x)
    {rest : List Char} (hrest : EndsNumber rest) :
    magnitude x.negative (s.chars ++ rest) = some (x, rest) := by
  have hhead : ∀ c ∈ ((s.fraction.elim [] fun digits => '.' :: digits) ++ rest).head?,
      c.isDigit = false := by
    cases s.fraction with
    | none => exact fun c hc => (hrest c hc).1
    | some back => simp
  have hchars : s.chars ++ rest =
      s.digits ++ ((s.fraction.elim [] fun digits => '.' :: digits) ++ rest) := by
    simp [Spelling.chars, hexponent]
  simp only [magnitude, hchars, digits_append h hhead, places_append h hrest, hread,
    Option.bind_eq_bind, Option.bind_some]
  rfl

/-- The text of a number begins with a digit or with a sign and a digit. -/
theorem exists_text_eq_cons (x : Binary64) :
    ∃ c more, Layout.script.text x = c :: more ∧ (c = '-' ∨ c.isDigit = true) := by
  obtain ⟨s, htext, hvalid, -⟩ := Layout.exists_valid_script x
  rw [htext]
  split
  · exact ⟨_, _, rfl, .inl rfl⟩
  · obtain ⟨c, more, hcons⟩ := List.exists_cons_of_ne_nil hvalid.digits_ne
    exact ⟨c, _, by rw [Spelling.chars, hcons]; rfl, .inr (hvalid.digits_all c (by simp [hcons]))⟩

/-- A number is read from its text in a script. -/
theorem decimal_text (x : Binary64) {rest : List Char} (hrest : EndsNumber rest) :
    decimal (Layout.script.text x ++ rest) = some (x, rest) := by
  obtain ⟨s, htext, hvalid, hexponent, hread⟩ := Layout.exists_valid_script x
  have hmagnitude := magnitude_chars hvalid hexponent hread hrest
  rw [htext]
  cases hnegative : x.negative with
  | true =>
    rw [hnegative] at hmagnitude
    exact hmagnitude
  | false =>
    obtain ⟨c, more, hcons⟩ := List.exists_cons_of_ne_nil hvalid.digits_ne
    have hc : c ≠ '-' := ne_of_isDigit (hvalid.digits_all c (by simp [hcons])) rfl
    obtain ⟨tail, htail⟩ : ∃ tail, s.chars ++ rest = c :: tail :=
      ⟨_, by rw [Spelling.chars, hcons]; rfl⟩
    rw [hnegative, htail] at hmagnitude
    rw [if_neg Bool.false_ne_true, htail, decimal]
    · exact hmagnitude
    · exact fun _ h => hc (List.cons.inj h).1

theorem word_numeralChars (n : UInt32) {rest : List Char}
    (hrest : ∀ c ∈ rest.head?, c.isDigit = false) :
    word (Text.numeralChars n.toNat ++ rest) = some (n, rest) := by
  have hread := whole_numeralChars n.toNat hrest
  simp only [word, hread, Option.bind_eq_bind, Option.bind_some]
  rw [if_pos n.toNat_lt_size, UInt32.ofNat_toNat]

theorem find?_name (e : OnError) : (OnError.all.find? fun d => d.name = e.name) = some e := by
  cases e <;> decide

theorem exists_numeralChars_eq_cons (n : Nat) :
    ∃ c more, Text.numeralChars n = c :: more ∧ c.isDigit = true := by
  obtain ⟨c, more, hcons⟩ := List.exists_cons_of_ne_nil (Nat.toDigits_ne_nil (n := n))
  exact ⟨c, more, hcons, isDigit_toDigits (hcons ▸ List.mem_cons_self)⟩

theorem expect_none_numeralChars (n : Nat) (rest : List Char) :
    expect "None" (Text.numeralChars n ++ rest) = none := by
  obtain ⟨c, more, hcons, hc⟩ := exists_numeralChars_eq_cons n
  have hne : (c == 'N') = false := by simpa using ne_of_isDigit hc rfl
  rw [hcons]
  show (c :: (more ++ rest)).dropPrefix? ['N', 'o', 'n', 'e'] = none
  rw [List.dropPrefix?, hne, if_neg Bool.false_ne_true]

/-- The arguments of a policy are read as the policy and its time limit. -/
theorem policy_chars (p : Policy) (timeout : Option UInt32) {rest : List Char}
    (hrest : EndsNumber rest) :
    policy ((Expression.policy p timeout).chars ++ rest) = some ((p, timeout), rest) := by
  have hretries (after : List Char) :
      word (Text.numeralChars p.retryCount.toNat ++ (", retry_interval=".toList ++ after)) =
        some (p.retryCount, ", retry_interval=".toList ++ after) :=
    word_numeralChars _ (by simp)
  have hinterval (after : List Char) :
      word (Text.numeralChars p.retryIntervalSeconds.toNat ++ (", on_error=".toList ++ after)) =
        some (p.retryIntervalSeconds, ", on_error=".toList ++ after) :=
    word_numeralChars _ (by simp)
  rw [Expression.chars_policy]
  simp only [List.append_assoc, policy, expect_append, hretries, hinterval, text_quote,
    find?_name, Option.bind_eq_bind, Option.bind_some]
  cases timeout with
  | none => rw [Option.map_none, Option.getD_none, expect_append]
  | some seconds =>
    have htimeout := word_numeralChars seconds fun c hc => (hrest c hc).1
    rw [Option.map_some, Option.getD_some, expect_none_numeralChars]
    simp only [htimeout, Option.bind_some]
    rfl

/-- The lookup of a secret is read as the two names in it. -/
theorem secret_chars (credential name : String) (rest : List Char) :
    secret ((Expression.secret credential name).chars ++ rest) =
      some ((credential, name), rest) := by
  have hchars : (Expression.secret credential name).chars ++ rest =
      "ctx.secret(".toList ++ (Expression.quote credential ++
        (", ".toList ++ (Expression.quote name ++ (")".toList ++ rest)))) := by
    simp
  rw [hchars]
  simp only [secret, expect_append, text_quote, Option.bind_eq_bind, Option.bind_some]
  rfl

/-- A decimal is looked for as a fractional expression and a whole number is not. -/
def Suits (fractional : Bool) : Expression → Prop
  | .natural _ => fractional = false
  | .decimal _ => fractional = true
  | _ => True

theorem expression_of_number {fractional : Bool} {c : Char} (hc : c = '-' ∨ c.isDigit = true)
    (s : List Char) : expression fractional (c :: s) =
      if fractional then (decimal (c :: s)).map fun r => (.decimal r.1, r.2)
      else (whole (c :: s)).map fun r => (.natural r.1, r.2) := by
  have hne : ∀ d, d.isDigit = false → d ≠ '-' → c ≠ d := by
    rintro d hd hsign
    rcases hc with rfl | hc
    · exact hsign.symm
    · exact ne_of_isDigit hc hd
  rw [expression]
  · exact fun _ h => hne '"' rfl (by decide) (List.cons.inj h).1
  · exact fun _ h => hne '[' rfl (by decide) (List.cons.inj h).1
  · exact fun _ h => hne 'c' rfl (by decide) (List.cons.inj h).1
  · exact fun _ h => hne 'r' rfl (by decide) (List.cons.inj h).1
  · exact fun _ h => hne 'N' rfl (by decide) (List.cons.inj h).1
  · exact fun _ h => hne 'T' rfl (by decide) (List.cons.inj h).1
  · exact fun _ h => hne 'F' rfl (by decide) (List.cons.inj h).1

/-- Every expression is read back, and nothing behind it is taken for a part of it. -/
theorem expression_chars {fractional : Bool} {e : Expression} (h : Suits fractional e)
    {rest : List Char} (hrest : EndsNumber rest) :
    expression fractional (e.chars ++ rest) = some (e, rest) := by
  cases e with
  | none =>
    show (expect "None" ("None".toList ++ rest)).map _ = _
    rw [expect_append, Option.map_some]
  | truth b =>
    cases b with
    | true =>
      show (expect "True" ("True".toList ++ rest)).map _ = _
      rw [expect_append, Option.map_some]
    | false =>
      show (expect "False" ("False".toList ++ rest)).map _ = _
      rw [expect_append, Option.map_some]
  | natural n =>
    obtain rfl : fractional = false := h
    obtain ⟨c, more, hcons, hc⟩ := exists_numeralChars_eq_cons n
    have hread := whole_numeralChars n fun c hc => (hrest c hc).1
    rw [Expression.chars_natural]
    rw [hcons, List.cons_append] at hread ⊢
    rw [expression_of_number (.inr hc), hread]
    rfl
  | decimal x =>
    obtain rfl : fractional = true := h
    obtain ⟨c, more, hcons, hc⟩ := exists_text_eq_cons x
    have hread := decimal_text x hrest
    rw [Expression.chars_decimal]
    rw [hcons, List.cons_append] at hread ⊢
    rw [expression_of_number hc, hread]
    rfl
  | text s =>
    show (text (Expression.quote s ++ rest)).map _ = _
    rw [text_quote, Option.map_some]
  | texts items =>
    have hread := texts_chars items rest
    show (texts ((Expression.texts items).chars ++ rest)).map _ = _
    rw [hread, Option.map_some]
  | secret credential name =>
    have hread := secret_chars credential name rest
    show (secret ((Expression.secret credential name).chars ++ rest)).map _ = _
    rw [hread, Option.map_some]
  | policy p timeout =>
    have hread := policy_chars p timeout hrest
    show (policy ((Expression.policy p timeout).chars ++ rest)).map _ = _
    rw [hread, Option.map_some]

end Runbook.Reader
