import Mathlib.Tactic.Common
import Runbook.Json.Source
import Runbook.Proofs.NumberText

/-!
Values as they are written and read. The text of a value, on one line or over several, is lexed
into the same tokens, and from these the reader builds the value again without a fault. The value
has to be one that a text can hold: whole numbers fit a word, no object names a member twice, and
arrays and objects do not nest too deep.
-/
namespace Runbook.Json

namespace Token

theorem hexDigit?_digitChar : ∀ n < 16, hexDigit? (Nat.digitChar n) = some n := by decide

theorem lexCodePoint_control {n : Nat} (hn : n < 0x20) (rest : List Char) :
    lexCodePoint ('0' :: '0' :: Nat.digitChar (n / 16) :: Nat.digitChar (n % 16) :: rest) =
      .ok (n, rest) := by
  have hbytes : ∀ high < 2, ∀ low < 16, ¬ (String.ofList
      ['0', '0', Nat.digitChar high, Nat.digitChar low]).utf8ByteSize < 4 := by decide
  have hzero : hexDigit? '0' = some 0 := rfl
  have hhigh : hexDigit? (Nat.digitChar (n / 16)) = some (n / 16) :=
    hexDigit?_digitChar _ (by omega)
  have hlow : hexDigit? (Nat.digitChar (n % 16)) = some (n % 16) :=
    hexDigit?_digitChar _ (by omega)
  have hhex : lexHex ('0' :: '0' :: Nat.digitChar (n / 16) :: Nat.digitChar (n % 16) :: rest) =
      .ok (n, rest) := by
    have hlong : ¬ (String.ofList (List.take 4 ('0' :: '0' :: Nat.digitChar (n / 16) ::
        Nat.digitChar (n % 16) :: rest))).utf8ByteSize < 4 :=
      hbytes (n / 16) (by omega) (n % 16) (by omega)
    rw [lexHex, if_neg hlong]
    simp only [hzero, hhigh, hlow]
    congr 2
    omega
  rw [lexCodePoint, hhex]
  simp only
  rw [if_neg (by omega), if_neg (by omega)]

/-- A character is read back from its escape. -/
theorem readText_escapeChar (c : Char) (read rest : List Char) :
    readText read (escapeChar c ++ rest) = readText (c :: read) rest := by
  unfold escapeChar
  split_ifs with hquote hback hline hreturn htab hbell hfeed hcontrol
  · subst hquote
    simp [readText, simpleEscape?]
  · subst hback
    simp [readText, simpleEscape?]
  · subst hline
    simp [readText, simpleEscape?]
  · subst hreturn
    simp [readText, simpleEscape?]
  · subst htab
    simp [readText, simpleEscape?]
  · subst hbell
    simp [readText, simpleEscape?]
  · subst hfeed
    simp [readText, simpleEscape?]
  · show readText read ('\\' :: 'u' :: '0' :: '0' :: Nat.digitChar (c.toNat / 16) ::
      Nat.digitChar (c.toNat % 16) :: rest) = _
    rw [readText.eq_def]
    simp only
    split
    · rename_i hfault
      rw [lexCodePoint_control hcontrol] at hfault
      exact absurd hfault (by simp)
    · rename_i n after hpoint
      rw [lexCodePoint_control hcontrol] at hpoint
      obtain ⟨rfl, rfl⟩ : c.toNat = n ∧ rest = after := by simpa using hpoint
      rw [Char.ofNat_toNat]
  · show readText read (c :: rest) = _
    rw [readText, if_neg hcontrol]
    all_goals simp_all

theorem readText_escaped (chars read rest : List Char) :
    readText read (chars.flatMap escapeChar ++ '"' :: rest) =
      .ok (String.ofList (read.reverse ++ chars), rest) := by
  induction chars generalizing read with
  | nil =>
    rw [List.append_nil]
    simp [readText]
  | cons c more ih =>
    rw [List.flatMap_cons, List.append_assoc, readText_escapeChar, ih]
    simp

/-- A text is lexed as itself. -/
theorem lex_textChars (s : String) (rest : List Char) :
    lex (textChars s ++ rest) = .text (.good s) :: lex rest := by
  have hread := readText_escaped s.toList [] rest
  have htext : lexText (s.toList.flatMap escapeChar ++ '"' :: rest) = (.good s, rest) := by
    rw [lexText, hread]
    simp
  have hchars : textChars s ++ rest = '"' :: (s.toList.flatMap escapeChar ++ '"' :: rest) := by
    simp [textChars]
  have hone (t : List Char) : lexOne '"' t = (.text (lexText t).1, (lexText t).2) := rfl
  rw [hchars, lex, if_neg (by decide), hone, htext]

theorem lex_blanks {blanks : List Char} (h : ∀ c ∈ blanks, isSpace c = true) (rest : List Char) :
    lex (blanks ++ rest) = lex rest := by
  induction blanks with
  | nil => rfl
  | cons c more ih =>
    rw [List.cons_append, lex, if_pos (h c List.mem_cons_self)]
    exact ih fun d hd => h d (List.mem_cons_of_mem c hd)

theorem lex_lineStart (level : Nat) (rest : List Char) :
    lex (Value.lineStart level ++ rest) = lex rest := by
  apply lex_blanks
  intro c hc
  rcases List.mem_cons.mp hc with rfl | hc
  · rfl
  · rw [List.eq_of_mem_replicate hc]
    rfl

theorem endsNumber_nil : EndsNumber [] := by simp [EndsNumber]

theorem endsNumber_cons {c : Char} (hdigit : c.isDigit = false)
    (hmark : c ≠ '.' ∧ c ≠ 'e' ∧ c ≠ 'E') (rest : List Char) : EndsNumber (c :: rest) := by
  rintro d ⟨⟩
  exact ⟨hdigit, hmark⟩

end Token

open Token

namespace Value

/-- Values that a text can hold and that nest arrays and objects no deeper than there is room. -/
inductive Fits : Nat → Value → Prop where
  | null {room : Nat} : Fits room .null
  | bool {room : Nat} (b : Bool) : Fits room (.bool b)
  | number {room : Nat} {n : Number} (h : n.InWord) : Fits room (.number n)
  | text {room : Nat} (s : String) : Fits room (.text s)
  | array {room : Nat} {items : List Value} (h : ∀ v ∈ items, Fits room v) :
    Fits (room + 1) (.array items)
  | object {room : Nat} {members : List (String × Value)}
    (hnames : (members.map Prod.fst).Nodup) (h : ∀ m ∈ members, Fits room m.2) :
    Fits (room + 1) (.object members)

mutual

def tokens : Value → List Token
  | .null => [.null]
  | .bool b => [.bool b]
  | .number n => [.number (.good n)]
  | .text s => [.text (.good s)]
  | .array items => .openArray :: itemTokens false items ++ [.closeArray]
  | .object members => .openObject :: memberTokens false members ++ [.closeObject]

def itemTokens (comma : Bool) : List Value → List Token
  | [] => []
  | v :: rest => (if comma then [.comma] else []) ++ v.tokens ++ itemTokens true rest

def memberTokens (comma : Bool) : List (String × Value) → List Token
  | [] => []
  | (name, v) :: rest =>
    (if comma then [.comma] else []) ++ (.text (.good name) :: .colon :: v.tokens) ++
      memberTokens true rest

end

/-- What is written with commas between is lexed with commas between. -/
theorem lex_separated {α : Type} (chars : Bool → List α → List Char)
    (tokens : Bool → List α → List Token) (before : List Char) (one : α → List Char)
    (oneTokens : α → List Token) (hnil : ∀ comma, chars comma [] = [] ∧ tokens comma [] = [])
    (hchars : ∀ comma a l, chars comma (a :: l) =
      (if comma then [','] else []) ++ before ++ one a ++ chars true l)
    (htokens : ∀ comma a l, tokens comma (a :: l) =
      (if comma then [.comma] else []) ++ oneTokens a ++ tokens true l)
    (hbefore : ∀ s, lex (before ++ s) = lex s) {l : List α}
    (hone : ∀ a ∈ l, ∀ rest, EndsNumber rest → lex (one a ++ rest) = oneTokens a ++ lex rest)
    (comma : Bool) {rest : List Char} (hrest : EndsNumber rest) :
    lex (chars comma l ++ rest) = tokens comma l ++ lex rest := by
  induction l generalizing comma with
  | nil => simp [hnil]
  | cons a more ih =>
    have hends : EndsNumber (chars true more ++ rest) := by
      cases more with
      | nil => simpa [hnil] using hrest
      | cons b more =>
        rw [hchars]
        exact endsNumber_cons rfl (by decide) _
    have hmore := ih (fun b hb => hone b (List.mem_cons_of_mem a hb)) true
    have hfirst : lex (before ++ (one a ++ (chars true more ++ rest))) =
        oneTokens a ++ (tokens true more ++ lex rest) := by
      rw [hbefore, hone a List.mem_cons_self _ hends, hmore]
    have hcomma (s : List Char) : lex (',' :: s) = .comma :: lex s := by
      rw [lex, if_neg (by decide)]
      rfl
    rw [hchars, htokens]
    cases comma <;> simp [hcomma, hfirst]

theorem lex_open_array (s : List Char) : lex ('[' :: s) = .openArray :: lex s := by
  rw [lex, if_neg (by decide)]
  rfl

theorem lex_close_array (s : List Char) : lex (']' :: s) = .closeArray :: lex s := by
  rw [lex, if_neg (by decide)]
  rfl

theorem lex_open_object (s : List Char) : lex ('\x7b' :: s) = .openObject :: lex s := by
  rw [lex, if_neg (by decide)]
  rfl

theorem lex_close_object (s : List Char) : lex ('\x7d' :: s) = .closeObject :: lex s := by
  rw [lex, if_neg (by decide)]
  rfl

theorem lex_colon (s : List Char) : lex (':' :: s) = .colon :: lex s := by
  rw [lex, if_neg (by decide)]
  rfl

/-- The words of the language. -/
theorem lex_word {v : Value} (hv : v = .null ∨ ∃ b, v = .bool b) (rest : List Char) :
    lex (v.compactChars ++ rest) = v.tokens ++ lex rest := by
  rcases hv with rfl | ⟨b, rfl⟩
  · show lex ('n' :: 'u' :: 'l' :: 'l' :: rest) = _
    rw [lex, if_neg (by decide)]
    rfl
  · cases b with
    | true =>
      show lex ('t' :: 'r' :: 'u' :: 'e' :: rest) = _
      rw [lex, if_neg (by decide)]
      rfl
    | false =>
      show lex ('f' :: 'a' :: 'l' :: 's' :: 'e' :: rest) = _
      rw [lex, if_neg (by decide)]
      rfl

/-- A value on one line is lexed into its tokens. -/
theorem lex_compactChars {room : Nat} {v : Value} (h : v.Fits room) {rest : List Char}
    (hrest : EndsNumber rest) : lex (v.compactChars ++ rest) = v.tokens ++ lex rest := by
  induction h generalizing rest with
  | null => exact lex_word (.inl rfl) rest
  | bool b => exact lex_word (.inr ⟨b, rfl⟩) rest
  | number h => exact lex_number h hrest
  | text s => exact lex_textChars s rest
  | @array room items _ ih =>
    have hitems := lex_separated compactItems itemTokens [] compactChars Value.tokens
      (fun comma => ⟨rfl, rfl⟩) (fun comma v l => by simp [compactItems]) (fun comma v l => rfl)
      (fun s => rfl) (fun v hv rest => ih v hv) false
      (endsNumber_cons (c := ']') rfl (by decide) rest)
    simp [compactChars, tokens, lex_open_array, hitems, lex_close_array]
  | @object room members _ _ ih =>
    have hmembers := lex_separated compactMembers memberTokens []
      (fun m => textChars m.1 ++ ':' :: m.2.compactChars)
      (fun m => .text (.good m.1) :: .colon :: m.2.tokens)
      (fun comma => ⟨rfl, rfl⟩) (fun comma m l => by simp [compactMembers])
      (fun comma m l => rfl) (fun s => rfl) (l := members)
      (fun m hm rest hrest => by simp [lex_textChars, lex_colon, ih m hm hrest]) false
      (endsNumber_cons (c := '\x7d') rfl (by decide) rest)
    simp [compactChars, tokens, lex_open_object, hmembers, lex_close_object]

theorem endsNumber_lineStart (level : Nat) (rest : List Char) :
    EndsNumber (lineStart level ++ rest) :=
  endsNumber_cons rfl (by decide) _

/-- So is a value over several lines, whatever the level of its lines. -/
theorem lex_prettyChars {room : Nat} {v : Value} (h : v.Fits room) (level : Nat)
    {rest : List Char} (hrest : EndsNumber rest) :
    lex (v.prettyChars level ++ rest) = v.tokens ++ lex rest := by
  induction h generalizing level rest with
  | null => exact lex_word (.inl rfl) rest
  | bool b => exact lex_word (.inr ⟨b, rfl⟩) rest
  | number h => exact lex_number h hrest
  | text s => exact lex_textChars s rest
  | @array room items _ ih =>
    have hitems := lex_separated (prettyItems (level + 1)) itemTokens (lineStart (level + 1))
      (prettyChars (level + 1)) Value.tokens (fun comma => ⟨rfl, rfl⟩)
      (fun comma v l => by simp [prettyItems]) (fun comma v l => rfl)
      (lex_lineStart (level + 1)) (fun v hv rest => ih v hv (level + 1)) false
      (endsNumber_lineStart level (']' :: rest))
    cases items with
    | nil => simp [prettyChars, tokens, itemTokens, lex_open_array, lex_close_array]
    | cons v more =>
      simp [prettyChars, tokens, lex_open_array, hitems, lex_lineStart, lex_close_array]
  | @object room members _ _ ih =>
    have hspace (s : List Char) : lex (' ' :: s) = lex s := by rw [lex, if_pos (by decide)]
    have hmembers := lex_separated (prettyMembers (level + 1)) memberTokens (lineStart (level + 1))
      (fun m => textChars m.1 ++ ':' :: ' ' :: m.2.prettyChars (level + 1))
      (fun m => .text (.good m.1) :: .colon :: m.2.tokens)
      (fun comma => ⟨rfl, rfl⟩) (fun comma m l => by simp [prettyMembers])
      (fun comma m l => rfl) (lex_lineStart (level + 1)) (l := members)
      (fun m hm rest hrest => by
        simp [lex_textChars, lex_colon, hspace, ih m hm (level + 1) hrest]) false
      (endsNumber_lineStart level ('\x7d' :: rest))
    cases members with
    | nil => simp [prettyChars, tokens, memberTokens, lex_open_object, lex_close_object]
    | cons m more =>
      simp [prettyChars, tokens, lex_open_object, hmembers, lex_lineStart, lex_close_object]

end Value

namespace Source

def settle (v : Source) : List Frame → List Token → Document
  | [], more => ⟨v, !more.isEmpty⟩
  | frame :: frames, more => build frame.atEnd (frame.add v :: frames) more

def Expect.IsValue (expect : Expect) : Prop :=
  expect = .value ∨ expect = .firstItem ∨ expect = .nextItem

def Builds (v : Value) : Prop :=
  ∀ expect : Expect, expect.IsValue → ∀ frames more,
    build expect frames (v.tokens ++ more) = settle (ofValue v) frames more

/-- The tokens of items fill an open array up to its end. -/
theorem build_itemTokens {items : List Value} (h : ∀ v ∈ items, Builds v) (comma : Bool)
    (before : List Source) (frames : List Frame) (more : List Token) :
    build (if comma then .itemEnd else .firstItem) (.array before :: frames)
        (Value.itemTokens comma items ++ .closeArray :: more) =
      settle (.array (before.reverse ++ ofItems items) .closed) frames more := by
  induction items generalizing comma before with
  | nil =>
    rw [ofItems, List.append_nil]
    cases comma <;> cases frames <;> rfl
  | cons v rest ih =>
    have hv := h v List.mem_cons_self
    have hrest := ih (fun w hw => h w (List.mem_cons_of_mem v hw)) true (ofValue v :: before)
    rw [List.reverse_cons, List.append_assoc] at hrest
    cases comma with
    | false =>
      show build .firstItem _ ((v.tokens ++ Value.itemTokens true rest) ++ _) = _
      rw [List.append_assoc, hv _ (.inr (.inl rfl))]
      exact hrest
    | true =>
      show build .nextItem _ ((v.tokens ++ Value.itemTokens true rest) ++ _) = _
      rw [List.append_assoc, hv _ (.inr (.inr rfl))]
      exact hrest

/-- The tokens of members fill an open object up to its end. -/
theorem build_memberTokens {members : List (String × Value)} (h : ∀ m ∈ members, Builds m.2)
    (comma : Bool) (before : List (Leaf String × Source)) (name : Leaf String)
    (frames : List Frame) (more : List Token) :
    build (if comma then .memberEnd else .firstName) (.object before name :: frames)
        (Value.memberTokens comma members ++ .closeObject :: more) =
      settle (.object (before.reverse ++ ofMembers members) .closed) frames more := by
  induction members generalizing comma before name with
  | nil =>
    rw [ofMembers, List.append_nil]
    cases comma <;> cases frames <;> rfl
  | cons m rest ih =>
    obtain ⟨own, v⟩ := m
    have hv := h (own, v) List.mem_cons_self
    have hrest := ih (fun w hw => h w (List.mem_cons_of_mem _ hw)) true
      ((.good own, ofValue v) :: before) (.good own)
    rw [List.reverse_cons, List.append_assoc] at hrest
    have hmember : build .value (.object before (.good own) :: frames)
        ((v.tokens ++ Value.memberTokens true rest) ++ .closeObject :: more) =
        settle (.object (before.reverse ++ ofMembers ((own, v) :: rest)) .closed) frames more := by
      rw [List.append_assoc, hv _ (.inl rfl)]
      exact hrest
    cases comma <;> exact hmember

theorem builds_of_fits {room : Nat} {v : Value} (h : v.Fits room) : Builds v := by
  induction h with
  | null => rintro _ (rfl | rfl | rfl) (_ | ⟨frame, frames⟩) more <;> rfl
  | bool b => rintro _ (rfl | rfl | rfl) (_ | ⟨frame, frames⟩) more <;> rfl
  | number h => rintro _ (rfl | rfl | rfl) (_ | ⟨frame, frames⟩) more <;> rfl
  | text s => rintro _ (rfl | rfl | rfl) (_ | ⟨frame, frames⟩) more <;> rfl
  | @array room items _ ih =>
    intro expect hexpect frames more
    have hitems := build_itemTokens ih false [] frames more
    rw [Value.tokens, List.cons_append, List.cons_append, List.append_assoc]
    rcases hexpect with rfl | rfl | rfl <;> exact hitems
  | @object room members _ _ ih =>
    intro expect hexpect frames more
    have hmembers := build_memberTokens ih false [] (.good "") frames more
    rw [Value.tokens, List.cons_append, List.cons_append, List.append_assoc]
    rcases hexpect with rfl | rfl | rfl <;> exact hmembers

end Source

/-- A value is found again in its text, and nothing follows it. -/
theorem Document.ofText_compact {room : Nat} {v : Value} (h : v.Fits room) :
    ofText v.compact = ⟨Source.ofValue v, false⟩ := by
  have hlex := v.lex_compactChars h endsNumber_nil
  rw [List.append_nil] at hlex
  rw [ofText, Value.compact, String.toList_ofList, hlex, Source.builds_of_fits h _ (.inl rfl), lex]
  rfl

theorem Document.ofText_pretty {room : Nat} {v : Value} (h : v.Fits room) :
    ofText v.pretty = ⟨Source.ofValue v, false⟩ := by
  have hlex := v.lex_prettyChars h 0 endsNumber_nil
  rw [List.append_nil] at hlex
  rw [ofText, Value.pretty, String.toList_ofList, hlex, Source.builds_of_fits h _ (.inl rfl), lex]
  rfl

namespace Source

theorem valueItems_ofItems {depth : Option Nat} {items : List Value}
    (h : ∀ v ∈ items, (ofValue v).value depth = .ok v) :
    valueItems depth (ofItems items) = .ok items := by
  induction items with
  | nil => rfl
  | cons v rest ih =>
    rw [ofItems, valueItems, h v List.mem_cons_self,
      ih fun w hw => h w (List.mem_cons_of_mem v hw)]
    rfl

theorem valueMembers_ofMembers {depth : Option Nat} {members : List (String × Value)}
    (h : ∀ m ∈ members, (ofValue m.2).value depth = .ok m.2) :
    valueMembers depth (ofMembers members) = .ok members := by
  induction members with
  | nil => rfl
  | cons m rest ih =>
    obtain ⟨name, v⟩ := m
    have hv : (ofValue v).value depth = .ok v := h (name, v) List.mem_cons_self
    rw [ofMembers, valueMembers, hv, ih fun w hw => h w (List.mem_cons_of_mem _ hw)]
    rfl

theorem isTooDeep_eq_false {room : Nat} {depth : Option Nat}
    (h : ∀ d ∈ depth, d + (room + 1) ≤ depthLimit) : isTooDeep depth = false := by
  cases depth with
  | none => rfl
  | some d =>
    have hd := h d rfl
    simp only [isTooDeep, Option.any_some, decide_eq_false_iff_not]
    omega

theorem room_inside {room : Nat} {depth : Option Nat}
    (h : ∀ d ∈ depth, d + (room + 1) ≤ depthLimit) :
    ∀ d ∈ depth.map (· + 1), d + room ≤ depthLimit := by
  intro d hd
  obtain ⟨outer, houter, rfl⟩ := Option.map_eq_some_iff.mp hd
  have hlimit := h outer houter
  omega

/-- A whole value is read as itself where it has room. -/
theorem value_ofValue {room : Nat} {depth : Option Nat} {v : Value} (h : v.Fits room)
    (hroom : ∀ d ∈ depth, d + room ≤ depthLimit) : (ofValue v).value depth = .ok v := by
  induction h generalizing depth with
  | null => rfl
  | bool b => rfl
  | number h => rfl
  | text s => rfl
  | @array room items _ ih =>
    have hitems : valueItems (depth.map (· + 1)) (ofItems items) = .ok items :=
      valueItems_ofItems fun v hv => ih v hv (room_inside hroom)
    rw [ofValue, value, isTooDeep_eq_false hroom, hitems]
    rfl
  | @object room members _ _ ih =>
    have hmembers : valueMembers (depth.map (· + 1)) (ofMembers members) = .ok members :=
      valueMembers_ofMembers fun m hm => ih m hm (room_inside hroom)
    rw [ofValue, value, isTooDeep_eq_false hroom, hmembers]
    rfl

mutual

/-- Without a limit every value is read as itself. -/
theorem value_ofValue_none : ∀ v : Value, (ofValue v).value none = .ok v
  | .null => rfl
  | .bool _ => rfl
  | .number _ => rfl
  | .text _ => rfl
  | .array items => by
    rw [ofValue, value, Option.map_none, valueItems_ofItems_none items]
    rfl
  | .object members => by
    rw [ofValue, value, Option.map_none, valueMembers_ofMembers_none members]
    rfl

theorem valueItems_ofItems_none : ∀ items : List Value,
    valueItems none (ofItems items) = .ok items
  | [] => rfl
  | v :: rest => by
    rw [ofItems, valueItems, value_ofValue_none v, valueItems_ofItems_none rest]
    rfl

theorem valueMembers_ofMembers_none : ∀ members : List (String × Value),
    valueMembers none (ofMembers members) = .ok members
  | [] => rfl
  | (name, v) :: rest => by
    rw [ofMembers, valueMembers, value_ofValue_none v, valueMembers_ofMembers_none rest]
    rfl

end

end Source

/-- A text of a value that does not nest too deep is read as the value. -/
theorem Value.ofText_eq {room : Nat} {v : Value} (h : v.Fits room)
    (hroom : room ≤ Source.depthLimit) {s : String}
    (hs : Document.ofText s = ⟨Source.ofValue v, false⟩) : Value.ofText s = .ok v := by
  have hvalue : (Source.ofValue v).value (some 0) = .ok v :=
    Source.value_ofValue h fun d hd => by cases hd; omega
  simp only [Value.ofText, hs, bind, Except.bind, hvalue]
  rfl

end Runbook.Json
