import ModuleGraph.Json.Reader
import ModuleGraph.Json.Writer
import Mathlib.Data.List.Basic
import Mathlib.Tactic.Common

/-!
# Reading a tree that is written

A spelling is legible when the reader takes it for what the writer meant: a string up to its closing
quote, a number up to what delimits it. The text of a tree with legible spellings is read token by
token into the tree itself. The invariant of that reading speaks of any place where a value may
stand and of any text behind it, so the induction on the tree goes through arrays and objects.
-/
namespace ModuleGraph

namespace Text

theorem hexValue?_hexDigit {n : ℕ} (h : n < 16) : hexValue? (hexDigit n) = some n := by
  revert n
  decide

end Text

namespace Json

open Text (hexDigit)

/-- How a character is spelled: by a letter, by its code unit or as it is. -/
inductive Spelled (c : Char) : List Char → Prop
  | letter {d : Char} : d ≠ 'u' → simpleEscape? d = some c → Spelled c ['\\', d]
  | unit {u v x y : Char} : codeUnit? u v x y = some c.toNat → c.toNat < 0x20 →
      Spelled c ['\\', 'u', u, v, x, y]
  | plain : c ≠ '"' → c ≠ '\\' → ¬ c.toNat < 0x20 → Spelled c [c]

theorem codeUnit?_hexDigit {n : ℕ} (h : n < 0x20) :
    codeUnit? '0' '0' (hexDigit (n / 16)) (hexDigit (n % 16)) = some n := by
  have hzero : Text.hexValue? '0' = some 0 := by decide
  rw [codeUnit?, hzero, Text.hexValue?_hexDigit (n := n / 16) (by omega),
    Text.hexValue?_hexDigit (n := n % 16) (by omega)]
  simp only [Option.bind_eq_bind, Option.bind_some, Option.pure_def, Option.some.injEq]
  omega

theorem spelled_escapeChar (c : Char) : Spelled c (escapeChar c) := by
  unfold escapeChar
  split
  · next h => exact h ▸ .letter (d := '"') (by decide) rfl
  split
  · next h => exact h ▸ .letter (d := '\\') (by decide) rfl
  split
  · next h => exact h ▸ .letter (d := 'b') (by decide) rfl
  split
  · next h => exact h ▸ .letter (d := 'f') (by decide) rfl
  split
  · next h => exact h ▸ .letter (d := 'n') (by decide) rfl
  split
  · next h => exact h ▸ .letter (d := 'r') (by decide) rfl
  split
  · next h => exact h ▸ .letter (d := 't') (by decide) rfl
  split
  · next h => exact .unit (codeUnit?_hexDigit h) h
  · next hquote hbackslash _ _ _ _ _ h => exact .plain hquote hbackslash h

theorem Spelled.takeString {c : Char} {spelling : List Char} (h : Spelled c spelling)
    (s : List Char) :
    Token.takeString (spelling ++ s) = (Token.takeString s).prepend spelling := by
  cases h with
  | letter hu hd => simp [Token.takeString, hu, hd]
  | unit hunit _ => simp [Token.takeString, hunit]
  | plain _ hbackslash hcontrol => simp [Token.takeString, hbackslash, hcontrol]

theorem unescape_no_unit {a b c d : Char} (hunit : codeUnit? a b c d = none) (s : List Char) :
    unescape ('\\' :: 'u' :: a :: b :: c :: d :: s) = none := by
  by_cases hnext : ∃ e f g h t, s = '\\' :: 'u' :: e :: f :: g :: h :: t
  · obtain ⟨e, f, g, h, t, rfl⟩ := hnext
    simp [unescape.eq_2, hunit]
  · rw [unescape.eq_3 _ _ _ _ _ (by simpa using hnext)]
    simp [hunit]

theorem unescape_unit {a b c d : Char} {unit : ℕ} (hunit : codeUnit? a b c d = some unit)
    (hleading : isLeading unit = false) (htrailing : isTrailing unit = false) (s : List Char) :
    unescape ('\\' :: 'u' :: a :: b :: c :: d :: s) =
      (unescape s).map (Char.ofNat unit :: ·) := by
  by_cases hnext : ∃ e f g h t, s = '\\' :: 'u' :: e :: f :: g :: h :: t
  · obtain ⟨e, f, g, h, t, rfl⟩ := hnext
    cases hlow : codeUnit? e f g h with
    | none => simp [unescape.eq_2, hunit, hlow, unescape_no_unit hlow]
    | some low => simp [unescape.eq_2, hunit, hlow, hleading, htrailing]
  · rw [unescape.eq_3 _ _ _ _ _ (by simpa using hnext)]
    simp [hunit, hleading, htrailing]

theorem Spelled.unescape {c : Char} {spelling : List Char} (h : Spelled c spelling)
    (s : List Char) : unescape (spelling ++ s) = (unescape s).map (c :: ·) := by
  cases h with
  | letter hu hd => simp [Json.unescape, hu, hd]
  | unit hunit hlt =>
    have hl : isLeading c.toNat = false := by simp [isLeading]; omega
    have ht : isTrailing c.toNat = false := by simp [isTrailing]; omega
    simpa using unescape_unit hunit hl ht s
  | plain _ hbackslash _ => simp [Json.unescape, hbackslash]

theorem unescape_escape (s : List Char) : unescape (escape s) = some s := by
  induction s with
  | nil => rfl
  | cons c s ih =>
    rw [escape, List.flatMap_cons, (spelled_escapeChar c).unescape]
    change (unescape (escape s)).map (c :: ·) = _
    rw [ih, Option.map_some]

theorem read_escape (s : List Char) : read (escape s) = .ok s := by
  rw [read, unescape_escape]

theorem takeString_escape (s r : List Char) :
    Token.takeString (escape s ++ '"' :: r) = (escape s, .ok r) := by
  induction s with
  | nil => rfl
  | cons c s ih =>
    rw [escape, List.flatMap_cons, List.append_assoc, (spelled_escapeChar c).takeString]
    change (Token.takeString (escape s ++ '"' :: r)).prepend (escapeChar c) = _
    rw [ih]
    rfl

/-- Only the end of the text or of what a value is part of may stand behind the value. -/
def Delimited (s : List Char) : Prop := ∀ c ∈ s.head?, c = ',' ∨ c = ']' ∨ c = '}'

theorem delimited_cons {c : Char} (h : c = ',' ∨ c = ']' ∨ c = '}') (s : List Char) :
    Delimited (c :: s) := fun _ hd => Option.some.inj hd ▸ h

def IsString (lexeme : List Char) : Prop := ∃ s, lexeme = escape s

def IsNumber (lexeme : List Char) : Prop :=
  (∃ c s, lexeme = c :: s ∧ (c = '-' ∨ c.isDigit)) ∧
    ∀ r, Delimited r → Token.takeNumber (lexeme ++ r) = .ok (lexeme, r)

mutual

/-- All spellings in a tree are those of strings and numbers. -/
def Legible : Json → Prop
  | .null | .bool _ => True
  | .number lexeme => IsNumber lexeme
  | .string lexeme => IsString lexeme
  | .array items => LegibleItems items
  | .object members => LegibleMembers members

def LegibleItems : List Json → Prop
  | [] => True
  | item :: items => item.Legible ∧ LegibleItems items

def LegibleMembers : List (List Char × Json) → Prop
  | [] => True
  | (key, value) :: members => IsString key ∧ value.Legible ∧ LegibleMembers members

end

theorem itemsToPartial_eq_map (items : List Json) :
    itemsToPartial items = items.map toPartial := by
  induction items with
  | nil => rfl
  | cons item items ih => rw [itemsToPartial, ih, List.map_cons]

theorem membersToPartial_eq_map (members : List (List Char × Json)) :
    membersToPartial members = members.map fun m => (m.1, toPartial m.2) := by
  induction members with
  | nil => rfl
  | cons m members ih => rw [membersToPartial, ih, List.map_cons]

theorem legible_array_iff {items : List Json} :
    (array items).Legible ↔ ∀ item ∈ items, item.Legible := by
  rw [Legible]
  induction items with
  | nil => simp [LegibleItems]
  | cons item items ih => rw [LegibleItems, ih, List.forall_mem_cons]

theorem legible_object_iff {members : List (List Char × Json)} :
    (object members).Legible ↔ ∀ m ∈ members, IsString m.1 ∧ m.2.Legible := by
  rw [Legible]
  induction members with
  | nil => simp [LegibleMembers]
  | cons m members ih => rw [LegibleMembers, ih, List.forall_mem_cons, and_assoc]

namespace Reader

variable {t : Token} {awaiting awaiting' : Awaiting} {stack stack' : List Frame}

/-- A value is awaited; when it is there, it is put on the second stack. -/
inductive AwaitsValue : Awaiting → List Frame → List Frame → Prop
  | value (stack : List Frame) : AwaitsValue .value stack stack
  | firstItem (stack : List Frame) : AwaitsValue .firstItem stack (.array [] :: stack)

inductive AwaitsKey : Awaiting → List (List Char × Partial) → Prop
  | firstKey : AwaitsKey .firstKey []
  | key (members : List (List Char × Partial)) : AwaitsKey (.key members) members

theorem AwaitsValue.step? (h : AwaitsValue awaiting stack stack') {next : Awaiting × List Frame}
    (ht : startValue? t stack' = some next) : step? t awaiting stack = some next := by
  cases h with
  | value => exact ht
  | firstItem =>
    cases t with
    | closeArray => simp [startValue?] at ht
    | _ => exact ht

theorem AwaitsKey.step? {members : List (List Char × Partial)} (h : AwaitsKey awaiting members)
    (key : List Char) (stack : List Frame) :
    step? (.string key) awaiting stack = some (.colon members key, stack) := by
  cases h <;> rfl

theorem run_cons (h : step? t awaiting stack = some (awaiting', stack')) (ts : List Token) :
    run (t :: ts) awaiting stack = run ts awaiting' stack' := by
  rw [run.eq_def]
  split
  · simp_all
  · simp [step?] at h
  · simp_all
  · simp_all

theorem run_ofText_cons {c : Char} {s : List Char} (hspace : Token.isSpace c = false)
    (h : step? (Token.first c s).1 awaiting stack = some (awaiting', stack')) :
    run (Token.ofText (c :: s)) awaiting stack =
      run (Token.ofText (Token.first c s).2) awaiting' stack' := by
  rw [Token.ofText, if_neg (by simp [hspace]), run_cons h]

theorem run_quoted {lexeme : List Char} (hlexeme : IsString lexeme) (r : List Char)
    (h : step? (.string lexeme) awaiting stack = some (awaiting', stack')) :
    run (Token.ofText (quoted lexeme ++ r)) awaiting stack =
      run (Token.ofText r) awaiting' stack' := by
  obtain ⟨s, rfl⟩ := hlexeme
  have hfirst : Token.first '"' (escape s ++ '"' :: r) = (.string (escape s), r) := by
    simp [Token.first, takeString_escape, Token.ofQuotation]
  have hsplit : quoted (escape s) ++ r = '"' :: (escape s ++ '"' :: r) := by
    simp [quoted, between]
  rw [hsplit, run_ofText_cons rfl (by rw [hfirst]; exact h), hfirst]

theorem first_of_number {c : Char} (hc : c = '-' ∨ c.isDigit) (s : List Char) :
    Token.isSpace c = false ∧ Token.first c s = Token.ofNumber (Token.takeNumber (c :: s)) := by
  constructor
  · rcases hc with rfl | hc
    · rfl
    · simp only [Token.isSpace, Bool.or_eq_false_iff, beq_eq_false_iff_ne]
      refine ⟨⟨⟨?_, ?_⟩, ?_⟩, ?_⟩ <;> (rintro rfl; simp at hc)
  · unfold Token.first
    split <;> first | simp at hc | simp [hc]

theorem run_number {lexeme : List Char} (hlexeme : IsNumber lexeme) {r : List Char}
    (hr : Delimited r) (h : step? (.number lexeme) awaiting stack = some (awaiting', stack')) :
    run (Token.ofText (lexeme ++ r)) awaiting stack = run (Token.ofText r) awaiting' stack' := by
  obtain ⟨⟨c, s, rfl, hc⟩, htake⟩ := hlexeme
  obtain ⟨hspace, hfirst⟩ := first_of_number hc (s ++ r)
  rw [← List.cons_append, htake r hr, Token.ofNumber] at hfirst
  rw [List.cons_append, run_ofText_cons hspace (by rw [hfirst]; exact h), hfirst]

mutual

/-- A value is read in the place where it is awaited. -/
theorem run_compact (j : Json) (hj : j.Legible) {awaiting : Awaiting} {stack stack' : List Frame}
    (h : AwaitsValue awaiting stack stack') {r : List Char} (hr : Delimited r) :
    run (Token.ofText (compact j ++ r)) awaiting stack =
      run (Token.ofText r) (.afterValue (toPartial j)) stack' := by
  cases j with
  | null => exact run_ofText_cons rfl (h.step? rfl)
  | bool b => cases b <;> exact run_ofText_cons rfl (h.step? rfl)
  | number lexeme =>
    rw [Legible] at hj
    exact run_number hj hr (h.step? rfl)
  | string lexeme =>
    rw [Legible] at hj
    exact run_quoted hj r (h.step? rfl)
  | array items =>
    rw [Legible] at hj
    have hopen : compact (.array items) ++ r = '[' :: (compactItems items ++ ']' :: r) := by
      simp [compact, between]
    rw [hopen, run_ofText_cons rfl (h.step? rfl)]
    by_cases hempty : items = []
    · subst hempty
      exact run_ofText_cons rfl rfl
    · exact run_compactItems items hempty hj (.firstItem stack') r
  | object members =>
    rw [Legible] at hj
    have hopen : compact (.object members) ++ r = '{' :: (compactMembers members ++ '}' :: r) := by
      simp [compact, between]
    rw [hopen, run_ofText_cons rfl (h.step? rfl)]
    by_cases hempty : members = []
    · subst hempty
      exact run_ofText_cons rfl rfl
    · exact run_compactMembers members hempty hj .firstKey stack' r

theorem run_compactItems (items : List Json) (hne : items ≠ []) (hitems : LegibleItems items)
    {awaiting : Awaiting} {stack stack' : List Frame} {found : List Partial}
    (h : AwaitsValue awaiting stack (.array found :: stack')) (r : List Char) :
    run (Token.ofText (compactItems items ++ ']' :: r)) awaiting stack =
      run (Token.ofText r)
        (.afterValue (.array (found.reverse ++ itemsToPartial items) .closed)) stack' := by
  match items with
  | [item] =>
    rw [compactItems, run_compact item hitems.1 h (delimited_cons (by simp) r),
      run_ofText_cons rfl rfl]
    simp [itemsToPartial, Token.first]
  | item :: next :: items =>
    have hsplit : compactItems (item :: next :: items) ++ ']' :: r =
        compact item ++ ',' :: (compactItems (next :: items) ++ ']' :: r) := by
      simp [compactItems]
    rw [hsplit, run_compact item hitems.1 h (delimited_cons (by simp) _), run_ofText_cons rfl rfl]
    have hnext := run_compactItems (next :: items) (by simp) hitems.2
      (.value (.array (toPartial item :: found) :: stack')) r
    rw [List.reverse_cons, List.append_assoc] at hnext
    exact hnext

theorem run_compactMembers (members : List (List Char × Json)) (hne : members ≠ [])
    (hmembers : LegibleMembers members) {awaiting : Awaiting}
    {found : List (List Char × Partial)} (h : AwaitsKey awaiting found) (stack : List Frame)
    (r : List Char) :
    run (Token.ofText (compactMembers members ++ '}' :: r)) awaiting stack =
      run (Token.ofText r)
        (.afterValue (.object (found.reverse ++ membersToPartial members) .closed)) stack := by
  match members with
  | [(key, value)] =>
    obtain ⟨hkey, hvalue, -⟩ := hmembers
    have hsplit : compactMembers [(key, value)] ++ '}' :: r =
        quoted key ++ ':' :: (compact value ++ '}' :: r) := by
      simp [compactMembers]
    rw [hsplit, run_quoted hkey _ (h.step? key stack), run_ofText_cons rfl rfl]
    refine (run_compact value hvalue (.value _) (delimited_cons (by simp) r)).trans ?_
    rw [run_ofText_cons rfl rfl]
    simp [membersToPartial, Token.first]
  | (key, value) :: next :: members =>
    obtain ⟨hkey, hvalue, hrest⟩ := hmembers
    have hsplit : compactMembers ((key, value) :: next :: members) ++ '}' :: r = quoted key ++
        ':' :: (compact value ++ ',' :: (compactMembers (next :: members) ++ '}' :: r)) := by
      simp [compactMembers]
    rw [hsplit, run_quoted hkey _ (h.step? key stack), run_ofText_cons rfl rfl]
    refine (run_compact value hvalue (.value _) (delimited_cons (by simp) _)).trans ?_
    rw [run_ofText_cons rfl rfl]
    have hnext := run_compactMembers (next :: members) (by simp) hrest
      (.key ((key, toPartial value) :: found)) stack r
    rw [List.reverse_cons, List.append_assoc] at hnext
    exact hnext

end

end Reader

theorem ofText_compactText {j : Json} (hj : j.Legible) :
    Reading.ofText (compactText j) = ⟨toPartial j, false⟩ := by
  have hrun := Reader.run_compact j hj (.value []) (r := []) (by simp [Delimited])
  rw [List.append_nil] at hrun
  rw [Reading.ofText, compactText, String.toList_ofList, hrun, Token.ofText, Reader.run]

end Json

end ModuleGraph
