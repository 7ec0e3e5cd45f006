import Mathlib.Tactic.Common
import Runbook.Compiler.Fields
import Runbook.Proofs.AcceptedTemplates

/-!
Substitution as one pass over a text. A text is cut at its tokens: the first one to start in it,
then the first one to start behind that, and so on until none starts in what is left. A text has
one such cutting, and substitution follows it: it puts a value in the place of each token and leaves
what stands between them, and never looks at what it has put together.
-/
namespace Runbook.Template

def StartsToken (s : List Char) : Prop := ∃ name written, Spells name written ∧ written <+: s

def NoneBefore (n : Nat) (s : List Char) : Prop := ∀ i < n, ¬ StartsToken (s.drop i)

theorem token?_eq_some_iff {s name rest : List Char} :
    token? s = some (name, rest) ↔ ∃ written, Spells name written ∧ s = written ++ rest := by
  constructor
  · exact exists_spells_of_token?
  · rintro ⟨written, hspells, rfl⟩
    exact hspells.token?_append rest

theorem startsToken_iff {s : List Char} : StartsToken s ↔ (token? s).isSome = true := by
  rw [Option.isSome_iff_exists]
  constructor
  · rintro ⟨name, written, hspells, rest, rfl⟩
    exact ⟨_, hspells.token?_append rest⟩
  · rintro ⟨⟨name, rest⟩, htoken⟩
    obtain ⟨written, hspells, rfl⟩ := token?_eq_some_iff.mp htoken
    exact ⟨name, written, hspells, rest, rfl⟩

instance (s : List Char) : Decidable (StartsToken s) := decidable_of_iff _ startsToken_iff.symm

instance (n : Nat) (s : List Char) : Decidable (NoneBefore n s) :=
  inferInstanceAs (Decidable (∀ i < n, _))

structure Cut where
  before : List Char
  written : List Char
  name : List Char
deriving DecidableEq, Repr

/-- A text cut at some tokens, with what stands behind the last of them. -/
structure Cutting where
  cuts : List Cut
  last : List Char
deriving DecidableEq, Repr

namespace Cutting

def source (p : Cutting) : List Char :=
  p.cuts.flatMap (fun cut => cut.before ++ cut.written) ++ p.last

def filled (value : String → String) (p : Cutting) : List Char :=
  p.cuts.flatMap (fun cut => cut.before ++ (value (String.ofList cut.name)).toList) ++ p.last

def names (p : Cutting) : List String := p.cuts.map fun cut => String.ofList cut.name

/-- Whether each token stands at the first place behind the one before it where one starts, and
none starts behind the last. -/
inductive IsLeftmost : List Char → Cutting → Prop
  | last {s : List Char} (hnone : NoneBefore s.length s) : IsLeftmost s ⟨[], s⟩
  | token {s before written name rest : List Char} {p : Cutting}
      (hs : s = before ++ written ++ rest) (hspells : Spells name written)
      (hfirst : NoneBefore before.length s) (hrest : IsLeftmost rest p) :
      IsLeftmost s ⟨⟨before, written, name⟩ :: p.cuts, p.last⟩

def push (c : Char) : Cutting → Cutting
  | ⟨[], last⟩ => ⟨[], c :: last⟩
  | ⟨cut :: cuts, last⟩ => ⟨{ cut with before := c :: cut.before } :: cuts, last⟩

@[simp] theorem filled_push (value : String → String) (c : Char) (p : Cutting) :
    (p.push c).filled value = c :: p.filled value := by
  obtain ⟨_ | ⟨cut, cuts⟩, last⟩ := p <;> simp [push, filled]

@[simp] theorem names_push (c : Char) (p : Cutting) : (p.push c).names = p.names := by
  obtain ⟨_ | ⟨cut, cuts⟩, last⟩ := p <;> simp [push, names]

end Cutting

theorem noneBefore_zero (s : List Char) : NoneBefore 0 s :=
  fun i hi => absurd hi (Nat.not_lt_zero i)

theorem NoneBefore.cons {c : Char} {s : List Char} {n : Nat} (h : NoneBefore n s)
    (hhead : ¬ StartsToken (c :: s)) : NoneBefore (n + 1) (c :: s) := by
  intro i hi
  cases i with
  | zero => exact hhead
  | succ i => exact h i (Nat.lt_of_succ_lt_succ hi)

namespace Cutting.IsLeftmost

variable {s : List Char} {p q : Cutting}

theorem source_eq (h : IsLeftmost s p) : p.source = s := by
  induction h with
  | last hnone => rfl
  | token hs hspells hfirst hrest ih =>
    rw [hs, ← ih]
    simp [source]

/-- A character in front of which no token starts goes to the text before the first token. -/
theorem push (h : IsLeftmost s p) {c : Char} (hhead : ¬ StartsToken (c :: s)) :
    IsLeftmost (c :: s) (p.push c) := by
  cases h with
  | last hnone => exact .last (hnone.cons hhead)
  | token hs hspells hfirst hrest =>
    subst hs
    exact .token rfl hspells (hfirst.cons hhead) hrest

/-- Where no token starts there is none to cut off. -/
theorem le_before {n : Nat} (hnone : NoneBefore n s) {before written name rest : List Char}
    (hs : s = before ++ written ++ rest) (hspells : Spells name written) : n ≤ before.length := by
  by_contra hlt
  refine hnone before.length (Nat.lt_of_not_le hlt) ⟨name, written, hspells, rest, ?_⟩
  simp [hs]

/-- A text has one such cutting. Of two first tokens neither stands before the other, and what is
written in one place is one token. -/
theorem unique (hp : IsLeftmost s p) (hq : IsLeftmost s q) : p = q := by
  induction hp generalizing q with
  | last hnone =>
    cases hq with
    | last => rfl
    | token hs hspells =>
      have hle := le_before hnone hs hspells
      obtain ⟨inner, rfl, -⟩ := hspells.exists_inner
      simp only [hs, List.length_append, List.length_cons] at hle
      omega
  | @token s before written name rest p hs hspells hfirst hrest ih =>
    cases hq with
    | last hnone =>
      have hle := le_before hnone hs hspells
      obtain ⟨inner, rfl, -⟩ := hspells.exists_inner
      simp only [hs, List.length_append, List.length_cons] at hle
      omega
    | @token _ before' written' name' rest' q hs' hspells' hfirst' hrest' =>
      have hlength : before.length = before'.length :=
        Nat.le_antisymm (le_before hfirst hs' hspells') (le_before hfirst' hs hspells)
      have hsplit : before ++ (written ++ rest) = before' ++ (written' ++ rest') := by
        rw [← List.append_assoc, ← List.append_assoc, ← hs, ← hs']
      obtain ⟨rfl, hhere⟩ := List.append_inj hsplit hlength
      have htoken : some (name, rest) = some (name', rest') := by
        rw [← hspells.token?_append rest, hhere, hspells'.token?_append rest']
      obtain ⟨rfl, rfl⟩ := Prod.mk.inj (Option.some.inj htoken)
      obtain rfl := List.append_cancel_right hhere
      rw [ih hrest']

end Cutting.IsLeftmost

namespace Cutting

def ofPieces : List Piece → Cutting
  | [] => ⟨[], []⟩
  | .plain c :: rest => (ofPieces rest).push c
  | .token written name :: rest =>
    ⟨⟨[], written, name⟩ :: (ofPieces rest).cuts, (ofPieces rest).last⟩

theorem filled_ofPieces (value : String → String) (pieces : List Piece) :
    (ofPieces pieces).filled value = pieces.flatMap (Piece.chars value) := by
  induction pieces with
  | nil => rfl
  | cons piece rest ih =>
    rw [List.flatMap_cons, ← ih]
    cases piece with
    | plain c => rw [ofPieces, filled_push, Piece.chars, List.singleton_append]
    | token written name => simp [ofPieces, filled, Piece.chars]

theorem names_ofPieces (pieces : List Piece) :
    (ofPieces pieces).names = pieces.filterMap Piece.name? := by
  induction pieces with
  | nil => rfl
  | cons piece rest ih =>
    cases piece with
    | plain c =>
      rw [ofPieces, names_push, ih]
      rfl
    | token written name =>
      rw [List.filterMap_cons, ← ih]
      rfl

/-- Reading a text from left to right cuts it at its leftmost tokens. -/
theorem isLeftmost_ofPieces (s : List Char) : IsLeftmost s (ofPieces (pieces s)) := by
  induction s using pieces.induct with
  | case1 =>
    rw [pieces]
    exact .last (noneBefore_zero [])
  | case2 c rest name after htoken ih =>
    obtain ⟨written, hspells, hs⟩ := token?_eq_some_iff.mp htoken
    rw [hs, hspells.pieces_append]
    exact .token rfl hspells (noneBefore_zero _) ih
  | case3 c rest htoken ih =>
    rw [pieces_of_plain htoken]
    refine ih.push fun hhead => ?_
    rw [startsToken_iff, htoken] at hhead
    cases hhead

end Cutting

/-- Substitution is one pass from left to right. A text has one cutting in which each token stands
at the first place behind the one before it where a token starts, and none starts in what is left.
Whatever stands for the tokens, the texts between them stay as they are and each value comes as it
is into the place of its token: only the names of these tokens are asked for, and no token is looked
for in a value, in the text between two or where they meet. A text in which no token starts stays as
it is. Templates and lines of commands are filled in this way; the names of these tokens in their
order are the variables that a line refers to and what a table looks at before it takes a
template. -/
theorem substitution_is_one_pass (s : String) :
    ∃ cutting : Cutting,
      (∀ other : Cutting, other.IsLeftmost s.toList ↔ other = cutting) ∧
      cutting.source = s.toList ∧ names s = cutting.names ∧
      (∀ value, (substitute value s).toList = cutting.filled value) ∧
      (∀ value other, (∀ name ∈ cutting.names, value name = other name) →
        substitute value s = substitute other s) ∧
      ((∀ i, ¬ StartsToken (s.toList.drop i)) → ∀ value, substitute value s = s) ∧
      (∀ (table : Table) (kind : Kind) (fields : List (String × String)), table.text kind = s →
        (table.render kind fields).toList =
          cutting.filled fun name => (fields.lookup name).getD "") ∧
      (∀ resolver : Resolver, (resolver.fill s).toList = cutting.filled resolver.variableText) ∧
      variableReferences s = cutting.names.map (fun name => ⟨.parameter, name⟩) ∧
      (∀ (table : Table) (kind : Kind), Table.set kind s table =
        match cutting.names.find? fun name => !kind.hasField name with
        | some field => .error ⟨kind, field⟩ table
        | none => .ok () (table.put (kind, s))) := by
  let cutting := Cutting.ofPieces (pieces s.toList)
  have hleftmost : cutting.IsLeftmost s.toList := Cutting.isLeftmost_ofPieces s.toList
  have hnames : names s = cutting.names := (Cutting.names_ofPieces _).symm
  have hfilled : ∀ value, (substitute value s).toList = cutting.filled value := by
    intro value
    rw [substitute, String.toList_ofList, ← Cutting.filled_ofPieces]
  refine ⟨cutting, fun other => ⟨fun hother => hother.unique hleftmost, ?_⟩,
    hleftmost.source_eq, hnames, hfilled, ?_, ?_, ?_, ?_, ?_, ?_⟩
  · rintro rfl
    exact hleftmost
  · intro value other hsame
    exact substitute_congr (hnames ▸ hsame)
  · intro hnone value
    have hwhole : cutting = ⟨[], s.toList⟩ := hleftmost.unique (.last fun i _ => hnone i)
    rw [← String.toList_inj, hfilled, hwhole]
    rfl
  · rintro table kind fields rfl
    exact hfilled _
  · exact fun resolver => hfilled _
  · rw [variableReferences, hnames]
  · intro table kind
    rw [← hnames]
    rfl

/-- Of a run of braces the last two open the token, and a value with braces of its own leaves them
beside the others. -/
theorem substitution_is_one_pass_braces :
    let text := "\x7b\x7b\x7b id \x7d\x7d\x7d\x7b\x7bx"
    let cutting : Cutting :=
      ⟨[⟨"\x7b".toList, "\x7b\x7b id \x7d\x7d".toList, "id".toList⟩], "\x7d\x7b\x7bx".toList⟩
    cutting.IsLeftmost text.toList ∧
      substitute (fun name => "\x7b" ++ name ++ "\x7d") text =
        "\x7b\x7bid\x7d\x7d\x7b\x7bx" := by
  intro text cutting
  have hspells : Spells "id".toList "\x7b\x7b id \x7d\x7d".toList :=
    .mk [' '] [' '] ⟨by decide, by decide⟩ (List.forall_mem_singleton.mpr (by decide))
      (List.forall_mem_singleton.mpr (by decide))
  have hleftmost : cutting.IsLeftmost text.toList :=
    .token (by decide) hspells (by decide) (.last (s := "\x7d\x7b\x7bx".toList) (by decide))
  obtain ⟨found, hunique, -, -, hfilled, -⟩ := substitution_is_one_pass text
  obtain rfl := (hunique cutting).mp hleftmost
  refine ⟨hleftmost, String.toList_inj.mp ?_⟩
  rw [hfilled]
  decide

end Runbook.Template
