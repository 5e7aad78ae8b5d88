import ModuleGraph.Json

/-! Cutting a JSON text into tokens. Where a string, a number or a word breaks off or goes wrong,
a token says so and is the last one: what that means is for the grammar to decide. -/
namespace ModuleGraph.Json

inductive Token
  | openArray
  | closeArray
  | openObject
  | closeObject
  | comma
  | colon
  | string (lexeme : List Char)
  | number (lexeme : List Char)
  | bool (b : Bool)
  | null
  | openString (lexeme : List Char)
  | openNumber
  | broken (fault : Fault)

namespace Token

abbrev Cut := Except Fault (List Char × List Char)

def Cut.prepend (piece : List Char) (cut : Cut) : Cut := cut.map fun p => (piece ++ p.1, p.2)

abbrev Quotation := List Char × Except Fault (List Char)

def Quotation.prepend (piece : List Char) (q : Quotation) : Quotation := (piece ++ q.1, q.2)

/-- The rest of a string after its opening quote. Of an escape by code unit fewer than four bytes
may be left. -/
def takeString : List Char → Quotation
  | [] => ([], .error .endOfText)
  | '"' :: s => ([], .ok s)
  | '\\' :: 'u' :: a :: b :: c :: d :: s =>
    if (codeUnit? a b c d).isSome then (takeString s).prepend ['\\', 'u', a, b, c, d]
    else ([], .error .malformed)
  | '\\' :: 'u' :: s =>
    ([], .error (if (String.ofList s).utf8ByteSize < 4 then .endOfText else .malformed))
  | ['\\'] => ([], .error .endOfText)
  | '\\' :: c :: s =>
    if (simpleEscape? c).isSome then (takeString s).prepend ['\\', c] else ([], .error .malformed)
  | c :: s => if c.toNat < 0x20 then ([], .error .malformed) else (takeString s).prepend [c]

def takeDigits : List Char → Cut
  | [] => .error .endOfText
  | c :: s =>
    if c.isDigit then .ok ((c :: s).takeWhile Char.isDigit, (c :: s).dropWhile Char.isDigit)
    else .error .malformed

/-- The whole part of a number: a zero alone or digits that start with none. -/
def takeWhole (s : List Char) : Cut :=
  match takeDigits s with
  | .ok ('0' :: _ :: _, _) => .error .malformed
  | cut => cut

def takeFraction : List Char → Cut
  | '.' :: s => (takeDigits s).prepend ['.']
  | s => .ok ([], s)

def takeSigned : List Char → Cut
  | '+' :: s => (takeDigits s).prepend ['+']
  | '-' :: s => (takeDigits s).prepend ['-']
  | s => takeDigits s

def takeExponent : List Char → Cut
  | 'e' :: s => (takeSigned s).prepend ['e']
  | 'E' :: s => (takeSigned s).prepend ['E']
  | s => .ok ([], s)

def Cut.andThen (cut : Cut) (f : List Char → Cut) : Cut :=
  match cut with
  | .error fault => .error fault
  | .ok (piece, s) => (f s).prepend piece

def takeUnsigned (s : List Char) : Cut :=
  ((takeWhole s).andThen takeFraction).andThen takeExponent

def takeNumber : List Char → Cut
  | '-' :: s => (takeUnsigned s).prepend ['-']
  | s => takeUnsigned s

def dropWord : List Char → List Char → Except Fault (List Char)
  | [], s => .ok s
  | _ :: _, [] => .error .endOfText
  | c :: w, d :: s => if c = d then dropWord w s else .error .malformed

def isSpace (c : Char) : Bool := c == ' ' || c == '\n' || c == '\t' || c == '\r'

def ofQuotation : Quotation → Token × List Char
  | (lexeme, .ok s) => (string lexeme, s)
  | (lexeme, .error .endOfText) => (openString lexeme, [])
  | (_, .error .malformed) => (broken .malformed, [])

def ofNumber : Cut → Token × List Char
  | .ok (lexeme, s) => (number lexeme, s)
  | .error .endOfText => (openNumber, [])
  | .error .malformed => (broken .malformed, [])

def ofWord (t : Token) (word s : List Char) : Token × List Char :=
  match dropWord word s with
  | .ok s => (t, s)
  | .error fault => (broken fault, [])

def first (c : Char) (s : List Char) : Token × List Char :=
  match c with
  | '[' => (openArray, s)
  | ']' => (closeArray, s)
  | '{' => (openObject, s)
  | '}' => (closeObject, s)
  | ',' => (comma, s)
  | ':' => (colon, s)
  | '"' => ofQuotation (takeString s)
  | 'n' => ofWord null ['u', 'l', 'l'] s
  | 't' => ofWord (bool true) ['r', 'u', 'e'] s
  | 'f' => ofWord (bool false) ['a', 'l', 's', 'e'] s
  | c => if c = '-' ∨ c.isDigit then ofNumber (takeNumber (c :: s)) else (broken .malformed, [])

theorem Cut.prepend_eq_ok {piece p r : List Char} {cut : Cut} :
    cut.prepend piece = .ok (p, r) ↔ ∃ q, cut = .ok (q, r) ∧ p = piece ++ q := by
  cases cut with
  | error => simp [prepend, Except.map]
  | ok x => simp [prepend, Except.map]; grind

theorem Cut.andThen_eq_ok {p r : List Char} {cut : Cut} {f : List Char → Cut} :
    cut.andThen f = .ok (p, r) ↔
      ∃ a s b, cut = .ok (a, s) ∧ f s = .ok (b, r) ∧ p = a ++ b := by
  cases cut with
  | error => simp [andThen]
  | ok x => simp only [andThen, prepend_eq_ok, Except.ok.injEq]; grind

theorem takeString_append {s lexeme r : List Char} (h : takeString s = (lexeme, .ok r)) :
    s = lexeme ++ '"' :: r := by
  fun_induction takeString s generalizing lexeme r with
  | case1 | case4 | case5 | case6 | case8 | case9 => simp at h
  | case2 s => grind
  | case3 a b c d s _ ih | case7 c s _ _ _ ih | case10 c s _ _ _ _ _ _ ih =>
    simp only [Quotation.prepend, Prod.mk.injEq] at h
    rw [ih (Prod.ext rfl h.2), ← h.1]
    simp

theorem takeDigits_append {s digits r : List Char} (h : takeDigits s = .ok (digits, r)) :
    s = digits ++ r ∧ digits ≠ [] := by
  cases s with
  | nil => simp [takeDigits] at h
  | cons c s =>
    simp only [takeDigits] at h
    split at h
    · next hc =>
      obtain ⟨rfl, rfl⟩ := Prod.mk.injEq .. ▸ Except.ok.inj h
      exact ⟨(List.takeWhile_append_dropWhile ..).symm, by simp [hc]⟩
    · simp at h

theorem takeWhole_append {s digits r : List Char} (h : takeWhole s = .ok (digits, r)) :
    s = digits ++ r ∧ digits ≠ [] := by
  unfold takeWhole at h
  split at h
  · simp at h
  · exact takeDigits_append h

theorem takeFraction_append {s fraction r : List Char} (h : takeFraction s = .ok (fraction, r)) :
    s = fraction ++ r := by
  unfold takeFraction at h
  split at h
  · obtain ⟨q, hq, rfl⟩ := Cut.prepend_eq_ok.1 h
    simp [(takeDigits_append hq).1]
  · grind

theorem takeSigned_append {s digits r : List Char} (h : takeSigned s = .ok (digits, r)) :
    s = digits ++ r := by
  unfold takeSigned at h
  split at h
  · obtain ⟨q, hq, rfl⟩ := Cut.prepend_eq_ok.1 h
    simp [(takeDigits_append hq).1]
  · obtain ⟨q, hq, rfl⟩ := Cut.prepend_eq_ok.1 h
    simp [(takeDigits_append hq).1]
  · exact (takeDigits_append h).1

theorem takeExponent_append {s exponent r : List Char} (h : takeExponent s = .ok (exponent, r)) :
    s = exponent ++ r := by
  unfold takeExponent at h
  split at h
  · obtain ⟨q, hq, rfl⟩ := Cut.prepend_eq_ok.1 h
    simp [takeSigned_append hq]
  · obtain ⟨q, hq, rfl⟩ := Cut.prepend_eq_ok.1 h
    simp [takeSigned_append hq]
  · grind

theorem takeUnsigned_append {s lexeme r : List Char} (h : takeUnsigned s = .ok (lexeme, r)) :
    s = lexeme ++ r ∧ lexeme ≠ [] := by
  obtain ⟨a, s₁, b, ha, hb, rfl⟩ := Cut.andThen_eq_ok.1 h
  obtain ⟨c, s₂, d, hc, hd, rfl⟩ := Cut.andThen_eq_ok.1 ha
  obtain ⟨rfl, hne⟩ := takeWhole_append hc
  simp [takeFraction_append hd, takeExponent_append hb, hne]

theorem takeNumber_append {s lexeme r : List Char} (h : takeNumber s = .ok (lexeme, r)) :
    s = lexeme ++ r ∧ lexeme ≠ [] := by
  unfold takeNumber at h
  split at h
  · obtain ⟨q, hq, rfl⟩ := Cut.prepend_eq_ok.1 h
    simp [(takeUnsigned_append hq).1]
  · exact takeUnsigned_append h

theorem dropWord_append {w s r : List Char} (h : dropWord w s = .ok r) : s = w ++ r := by
  fun_induction dropWord w s <;> simp_all

theorem ofQuotation_length_le (s : List Char) :
    (ofQuotation (takeString s)).2.length ≤ s.length := by
  unfold ofQuotation
  split
  · next h => simp [takeString_append h]; omega
  · simp
  · simp

theorem ofNumber_length_le (c : Char) (s : List Char) :
    (ofNumber (takeNumber (c :: s))).2.length ≤ s.length := by
  unfold ofNumber
  split
  · next lexeme r h =>
    obtain ⟨hs, hne⟩ := takeNumber_append h
    have hl := congrArg List.length hs
    have := List.length_pos_iff.2 hne
    simp only [List.length_cons, List.length_append] at hl
    show r.length ≤ s.length
    omega
  · simp
  · simp

theorem ofWord_length_le (t : Token) (word s : List Char) :
    (ofWord t word s).2.length ≤ s.length := by
  fun_cases ofWord t word s with
  | case1 r h => simp [dropWord_append h]
  | case2 => simp

theorem first_length_le (c : Char) (s : List Char) : (first c s).2.length ≤ s.length := by
  unfold first
  split <;> try exact Nat.le_refl _
  · exact ofQuotation_length_le s
  · exact ofWord_length_le ..
  · exact ofWord_length_le ..
  · exact ofWord_length_le ..
  · split
    · exact ofNumber_length_le ..
    · simp

def ofText (s : List Char) : List Token :=
  match s with
  | [] => []
  | c :: s =>
    if isSpace c then ofText s
    else (first c s).1 :: ofText (first c s).2
termination_by s.length
decreasing_by
  · simp
  · exact Nat.lt_succ_of_le (first_length_le c s)

end Token

end ModuleGraph.Json
