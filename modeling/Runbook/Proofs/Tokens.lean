import Mathlib.Tactic.Common
import Runbook.Proofs.TextLines
import Runbook.Template.Token

/-!
Where tokens stand in a text. What a token looks like is said without a scan: two opening braces,
blanks, a name, blanks and two closing braces. None of it but the two braces at its head is an
opening brace, so no token starts inside another one, and the tokens of a text are all that stand
in it anywhere. Those of a part of a text are therefore among those of the whole.
-/
namespace Runbook.Template

theorem not_isBlank_of_isNameChar {c : Char} (h : isNameChar c = true) :
    Text.isBlank c = false := by
  have hrange : (48 ≤ c.toNat ∧ c.toNat ≤ 57) ∨ (65 ≤ c.toNat ∧ c.toNat ≤ 90) ∨
      (97 ≤ c.toNat ∧ c.toNat ≤ 122) ∨ c.toNat = 95 := by
    have hspelled : isNameChar c = ((decide (c.val ≥ 'A'.val ∧ c.val ≤ 'Z'.val) ||
        (decide (c.val ≥ 'a'.val) && decide (c.val ≤ 'z'.val)) ||
        (decide (c.val ≥ '0'.val) && decide (c.val ≤ '9'.val))) || decide (c = '_')) := rfl
    simp only [hspelled, Bool.or_eq_true, Bool.and_eq_true, decide_eq_true_eq,
      UInt32.le_iff_toNat_le, ge_iff_le] at h
    rcases h with ((h | h) | h) | rfl
    · exact .inr (.inl h)
    · exact .inr (.inr (.inl h))
    · exact .inl h
    · exact .inr (.inr (.inr rfl))
  simp only [Text.isBlank, Text.blankRanges, List.any_cons, List.any_nil, Bool.or_false,
    Bool.or_eq_false_iff, decide_eq_false_iff_not]
  omega

def IsName (name : List Char) : Prop :=
  name.head?.any isNameStart = true ∧ name.all isNameChar = true

/-- How a token of a name is written, with any blanks around the name. -/
inductive Spells (name : List Char) : List Char → Prop
  | mk (before after : List Char) (hname : IsName name)
      (hbefore : ∀ c ∈ before, Text.isBlank c = true)
      (hafter : ∀ c ∈ after, Text.isBlank c = true) :
      Spells name ('\x7b' :: '\x7b' :: (before ++ name ++ after ++ ['\x7d', '\x7d']))

/-- What is read off as a token is written as one. -/
theorem exists_spells_of_token? {s name rest : List Char} (h : token? s = some (name, rest)) :
    ∃ written, Spells name written ∧ s = written ++ rest := by
  unfold token? at h
  split at h
  · rename_i tail
    simp only at h
    split at h
    · rename_i hstart
      split at h
      · rename_i closed hclosing
        obtain ⟨rfl, rfl⟩ := Prod.mk.inj (Option.some.inj h)
        let body := tail.dropWhile Text.isBlank
        have hsplit : tail = tail.takeWhile Text.isBlank ++ body.takeWhile isNameChar ++
            (body.dropWhile isNameChar).takeWhile Text.isBlank ++ '\x7d' :: '\x7d' :: closed := by
          rw [← hclosing, List.append_assoc, List.takeWhile_append_dropWhile, List.append_assoc,
            List.takeWhile_append_dropWhile, List.takeWhile_append_dropWhile]
        refine ⟨_, .mk (tail.takeWhile Text.isBlank)
          ((body.dropWhile isNameChar).takeWhile Text.isBlank)
          ⟨hstart, List.all_takeWhile⟩ ?_ ?_, ?_⟩
        · exact List.all_eq_true.mp List.all_takeWhile
        · exact List.all_eq_true.mp List.all_takeWhile
        · conv_lhs => rw [hsplit]
          simp [body]
      · cases h
    · cases h
  · cases h

/-- What is written as a token is read off as one: the blanks end where the name begins, the name
ends at a blank or a brace, and the blanks behind it end at the brace. -/
theorem Spells.token?_append {name written : List Char} (h : Spells name written)
    (rest : List Char) : token? (written ++ rest) = some (name, rest) := by
  obtain ⟨before, after, hname, hbefore, hafter⟩ := h
  obtain ⟨c, more, rfl⟩ : ∃ c more, name = c :: more := by
    cases name with
    | nil => simp [IsName] at hname
    | cons c more => exact ⟨c, more, rfl⟩
  obtain ⟨hstart, hchars⟩ := hname
  have hall : ∀ x ∈ c :: more, isNameChar x = true := List.all_eq_true.mp hchars
  have hclosing : ∀ x ∈ ('\x7d' :: '\x7d' :: rest).head?, Text.isBlank x = false := by
    simp [show Text.isBlank '\x7d' = false by decide]
  have hend : ∀ x ∈ (after ++ '\x7d' :: '\x7d' :: rest).head?, isNameChar x = false := by
    cases after with
    | nil => simp [show isNameChar '\x7d' = false by decide]
    | cons d others =>
      have hd := hafter d List.mem_cons_self
      have hother : isNameChar d = false := by
        refine Bool.eq_false_iff.mpr fun hname => ?_
        rw [not_isBlank_of_isNameChar hname] at hd
        cases hd
      simpa using hother
  have hfirst : ∀ x ∈ (c :: more ++ (after ++ '\x7d' :: '\x7d' :: rest)).head?,
      Text.isBlank x = false := by
    simpa using not_isBlank_of_isNameChar (hall c List.mem_cons_self)
  obtain ⟨-, hbody⟩ := Text.span_append hbefore hfirst
  obtain ⟨hread, hleft⟩ := Text.span_append hall hend
  obtain ⟨-, hskip⟩ := Text.span_append hafter hclosing
  have hshape : '\x7b' :: '\x7b' :: (before ++ c :: more ++ after ++ ['\x7d', '\x7d']) ++ rest =
      '\x7b' :: '\x7b' :: (before ++ (c :: more ++ (after ++ '\x7d' :: '\x7d' :: rest))) := by
    simp
  rw [hshape]
  unfold token?
  simp only [hbody, hread, hleft, hskip, hstart, if_true]

namespace Spells

variable {name written : List Char}

/-- No brace opens behind the first two characters of a token. -/
theorem exists_inner (h : Spells name written) :
    ∃ inner, written = '\x7b' :: '\x7b' :: inner ∧ inner ≠ [] ∧ '\x7b' ∉ inner := by
  obtain ⟨before, after, ⟨-, hchars⟩, hbefore, hafter⟩ := h
  have hblank : ∀ blanks : List Char, (∀ c ∈ blanks, Text.isBlank c = true) → '\x7b' ∉ blanks :=
    fun blanks hall hmem => absurd (hall _ hmem) (by decide)
  have hname : '\x7b' ∉ name := fun hmem =>
    absurd (List.all_eq_true.mp hchars _ hmem) (by decide)
  refine ⟨before ++ name ++ after ++ ['\x7d', '\x7d'], rfl, by simp, ?_⟩
  simp [hblank before hbefore, hblank after hafter, hname]

/-- No token starts inside another one. -/
theorem token?_suffix (h : Spells name written) {t rest : List Char}
    (ht : t <:+ written ++ rest) (hinside : rest.length < t.length) (hne : t ≠ written ++ rest) :
    token? t = none := by
  obtain ⟨inner, rfl, hnil, hinner⟩ := h.exists_inner
  have hshort : rest.length < (inner ++ rest).length := by
    have := List.length_pos_iff.mpr hnil
    rw [List.length_append]
    omega
  -- a brace can open only behind the inner part of the token
  have hclosed : ∀ more, rest.length < ('\x7b' :: more).length →
      ¬ '\x7b' :: more <:+ inner ++ rest := by
    rintro more hlong ⟨front, hfront⟩
    obtain ⟨u, hu⟩ := List.suffix_of_suffix_length_le (List.suffix_append inner rest)
      (⟨front, hfront⟩ : '\x7b' :: more <:+ inner ++ rest) hlong.le
    rw [← hu, ← List.append_assoc] at hfront
    have hsplit : front ++ u = inner := List.append_cancel_right hfront
    cases u with
    | nil =>
      have hlength := congrArg List.length hu
      rw [List.nil_append] at hlength
      omega
    | cons d u =>
      obtain rfl := (List.cons.inj hu).1
      exact hinner (hsplit ▸ List.mem_append_right _ List.mem_cons_self)
  rw [Option.eq_none_iff_forall_ne_some]
  rintro ⟨other, left⟩ hother
  obtain ⟨found, hfound, rfl⟩ := exists_spells_of_token? hother
  obtain ⟨more, rfl, -⟩ := hfound.exists_inner
  rcases List.suffix_cons_iff.mp ht with heq | ht
  · exact hne heq
  · rcases List.suffix_cons_iff.mp ht with heq | ht
    · have heq : '\x7b' :: (more ++ left) = inner ++ rest := (List.cons.inj heq).2
      exact hclosed _ (heq ▸ hshort) (heq ▸ List.suffix_refl _)
    · exact hclosed _ hinside ht

end Spells

theorem Spells.pieces_append {name written : List Char} (h : Spells name written)
    (rest : List Char) : pieces (written ++ rest) = .token written name :: pieces rest := by
  obtain ⟨inner, hwritten, -⟩ := h.exists_inner
  have htoken := h.token?_append rest
  have htake : (written ++ rest).take ((written ++ rest).length - rest.length) = written := by
    rw [List.length_append, Nat.add_sub_cancel, List.take_left]
  rw [hwritten, List.cons_append] at htoken htake ⊢
  rw [pieces]
  split
  · rename_i found after heq
    obtain ⟨rfl, rfl⟩ := Prod.mk.inj (Option.some.inj (heq.symm.trans htoken))
    rw [htake]
  · rename_i heq
    cases heq.symm.trans htoken

theorem pieces_of_token {s name rest : List Char} (h : token? s = some (name, rest)) :
    ∃ written, pieces s = .token written name :: pieces rest := by
  obtain ⟨written, hspells, rfl⟩ := exists_spells_of_token? h
  exact ⟨written, hspells.pieces_append rest⟩

theorem pieces_of_plain {c : Char} {s : List Char} (h : token? (c :: s) = none) :
    pieces (c :: s) = .plain c :: pieces s := by
  rw [pieces]
  split
  · rename_i heq
    cases heq.symm.trans h
  · rfl

/-- The tokens of a text are all that stand in it anywhere. -/
theorem exists_token_mem_pieces_iff {s name : List Char} :
    (∃ written, .token written name ∈ pieces s) ↔
      ∃ t rest, t <:+ s ∧ token? t = some (name, rest) := by
  induction s using pieces.induct with
  | case1 => simp [pieces, token?]
  | case2 c s found after heq ih =>
    obtain ⟨written, hwritten, hs⟩ := exists_spells_of_token? heq
    obtain ⟨token, hpieces⟩ := pieces_of_token heq
    rw [hpieces]
    constructor
    · rintro ⟨w, hw⟩
      rcases List.mem_cons.mp hw with hw | hw
      · obtain ⟨-, rfl⟩ := Piece.token.inj hw
        exact ⟨_, after, List.suffix_refl _, heq⟩
      · obtain ⟨t, rest, ht, htoken⟩ := ih.mp ⟨w, hw⟩
        exact ⟨t, rest, ht.trans (hs ▸ List.suffix_append _ _), htoken⟩
    · rintro ⟨t, rest, ht, htoken⟩
      by_cases hwhole : t = c :: s
      · rw [hwhole, heq] at htoken
        obtain ⟨rfl, -⟩ := Prod.mk.inj (Option.some.inj htoken)
        exact ⟨token, List.mem_cons_self⟩
      · have hbehind : t.length ≤ after.length := by
          by_contra hinside
          rw [hs] at ht hwhole
          rw [hwritten.token?_suffix ht (Nat.lt_of_not_le hinside) hwhole] at htoken
          cases htoken
        have hafter : after <:+ c :: s := hs ▸ List.suffix_append _ _
        obtain ⟨w, hw⟩ :=
          ih.mpr ⟨t, rest, List.suffix_of_suffix_length_le ht hafter hbehind, htoken⟩
        exact ⟨w, List.mem_cons_of_mem _ hw⟩
  | case3 c s heq ih =>
    rw [pieces_of_plain heq]
    constructor
    · rintro ⟨w, hw⟩
      obtain ⟨t, rest, ht, htoken⟩ := ih.mp ⟨w, (List.mem_cons.mp hw).resolve_left (by simp)⟩
      exact ⟨t, rest, ht.trans (List.suffix_cons _ _), htoken⟩
    · rintro ⟨t, rest, ht, htoken⟩
      rcases List.suffix_cons_iff.mp ht with rfl | ht
      · rw [heq] at htoken
        cases htoken
      · obtain ⟨w, hw⟩ := ih.mpr ⟨t, rest, ht, htoken⟩
        exact ⟨w, List.mem_cons_of_mem _ hw⟩

theorem mem_names_iff {s name : String} :
    name ∈ names s ↔ ∃ written, .token written name.toList ∈ pieces s.toList := by
  rw [names, List.mem_filterMap]
  constructor
  · rintro ⟨piece, hpiece, hname⟩
    cases piece with
    | plain c => cases hname
    | token written found =>
      obtain rfl := Option.some.inj hname
      exact ⟨written, by rwa [String.toList_ofList]⟩
  · rintro ⟨written, hwritten⟩
    exact ⟨_, hwritten, by rw [Piece.name?, String.ofList_toList]⟩

/-- The tokens of a part of a text are tokens of the whole. -/
theorem names_subset_of_infix {part s : String} (h : part.toList <:+: s.toList) :
    names part ⊆ names s := by
  intro name hname
  obtain ⟨front, back, hs⟩ := h
  obtain ⟨t, rest, ⟨skipped, ht⟩, htoken⟩ :=
    exists_token_mem_pieces_iff.mp (mem_names_iff.mp hname)
  obtain ⟨written, hwritten, rfl⟩ := exists_spells_of_token? htoken
  refine mem_names_iff.mpr (exists_token_mem_pieces_iff.mpr
    ⟨written ++ (rest ++ back), rest ++ back, ⟨front ++ skipped, ?_⟩, hwritten.token?_append _⟩)
  simp [← hs, ← ht]

/-- Substitution looks at the values of the names in a text and at no others. -/
theorem substitute_congr {value other : String → String} {s : String}
    (h : ∀ name ∈ names s, value name = other name) : substitute value s = substitute other s := by
  have hpiece : ∀ piece ∈ pieces s.toList, piece.chars value = piece.chars other := by
    intro piece hpiece
    cases piece with
    | plain c => rfl
    | token written name =>
      have hname : String.ofList name ∈ names s := List.mem_filterMap.mpr ⟨_, hpiece, rfl⟩
      rw [Piece.chars, Piece.chars, h _ hname]
  rw [substitute, substitute, List.flatMap_congr hpiece]

end Runbook.Template
