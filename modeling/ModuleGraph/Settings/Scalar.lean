import ModuleGraph.Text

/-! Values in settings files: strings in four ways of quoting, truth values and whole numbers.
Each reader takes a value from the front of a text and gives back the rest, which is never longer
than the text. -/
namespace ModuleGraph.Settings

inductive Scalar
  | string (s : String)
  | bool (b : Bool)
  | integer (n : Int)
deriving DecidableEq

def isSpace (c : Char) : Bool := c == ' ' || c == '\t'

/-- Whether a character may stand as it is in comments and quotes: all but control characters,
the tabulator apart. -/
def isPlain (c : Char) : Bool := c == '\t' || (0x20 ≤ c.toNat && c.toNat != 0x7F)

def lineBreak? : List Char → Option (List Char)
  | '\n' :: s => some s
  | '\r' :: '\n' :: s => some s
  | _ => none

def simpleEscape? : Char → Option Char
  | 'b' => some '\x08'
  | 't' => some '\t'
  | 'n' => some '\n'
  | 'f' => some '\x0c'
  | 'r' => some '\r'
  | '"' => some '"'
  | '\\' => some '\\'
  | _ => none

def codePoint? (digits : List Char) : Option Char := do
  let n ← digits.foldlM (fun n c => (Text.hexValue? c).map (n * 16 + ·)) 0
  if n.isValidChar then some (Char.ofNat n) else none

def push (c : Char) (taken : Option (List Char × List Char)) : Option (List Char × List Char) :=
  taken.map fun t => (c :: t.1, t.2)

def takeQuoted : List Char → Option (List Char × List Char)
  | [] => none
  | '"' :: s => some ([], s)
  | '\\' :: 'u' :: a :: b :: c :: d :: s => do
    push (← codePoint? [a, b, c, d]) (takeQuoted s)
  | '\\' :: 'U' :: a :: b :: c :: d :: e :: f :: g :: h :: s => do
    push (← codePoint? [a, b, c, d, e, f, g, h]) (takeQuoted s)
  | '\\' :: c :: s => do push (← simpleEscape? c) (takeQuoted s)
  | c :: s => if isPlain c then push c (takeQuoted s) else none

def takeLiteral : List Char → Option (List Char × List Char)
  | [] => none
  | '\'' :: s => some ([], s)
  | c :: s => if isPlain c then push c (takeLiteral s) else none

/-- What follows three closing marks: up to two more of them still belong to the text. -/
def takeClosing (mark : Char) : List Char → List Char × List Char
  | a :: b :: s =>
    if a = mark then if b = mark then ([a, b], s) else ([a], b :: s) else ([], a :: b :: s)
  | [a] => if a = mark then ([a], []) else ([], [a])
  | [] => ([], [])

def breaksNext (s : List Char) : Bool := (lineBreak? (s.dropWhile isSpace)).isSome

/-- The text up to three quotes, with escapes read. A backslash at the end of a line skips all
spaces and line breaks behind it. -/
def takeLongQuoted (skips : Bool) : List Char → Option (List Char × List Char)
  | [] => none
  | '"' :: '"' :: '"' :: s => some (takeClosing '"' s)
  | '\r' :: '\n' :: s =>
    if skips then takeLongQuoted true s else push '\n' (takeLongQuoted false s)
  | '\n' :: s => if skips then takeLongQuoted true s else push '\n' (takeLongQuoted false s)
  | '\\' :: 'u' :: a :: b :: c :: d :: s => do
    push (← codePoint? [a, b, c, d]) (takeLongQuoted false s)
  | '\\' :: 'U' :: a :: b :: c :: d :: e :: f :: g :: h :: s => do
    push (← codePoint? [a, b, c, d, e, f, g, h]) (takeLongQuoted false s)
  | '\\' :: c :: s =>
    if breaksNext (c :: s) then takeLongQuoted true (c :: s)
    else do push (← simpleEscape? c) (takeLongQuoted false s)
  | c :: s =>
    if skips && isSpace c then takeLongQuoted true s
    else if isPlain c then push c (takeLongQuoted false s)
    else none

def takeLongLiteral : List Char → Option (List Char × List Char)
  | [] => none
  | '\'' :: '\'' :: '\'' :: s => some (takeClosing '\'' s)
  | '\r' :: '\n' :: s => push '\n' (takeLongLiteral s)
  | '\n' :: s => push '\n' (takeLongLiteral s)
  | c :: s => if isPlain c then push c (takeLongLiteral s) else none

def dropBreak (s : List Char) : List Char := (lineBreak? s).getD s

/-- The number that digits of a base stand for. Single low lines may separate them. -/
def digits? (base : Nat) (s : List Char) : Option Nat := do
  let groups := Text.splitAll '_' s
  if groups.any List.isEmpty then none
  groups.flatten.foldlM (fun n c => do
    let d ← Text.hexValue? c
    if d < base then some (n * base + d) else none) 0

/-- Reads decimal digits, of which the first is a zero only if it is alone. -/
def decimal? (s : List Char) : Option Nat :=
  if s.head? = some '0' ∧ s.length ≠ 1 then none else digits? 10 s

def integer? : List Char → Option Int
  | '0' :: 'x' :: s => (digits? 16 s).map Int.ofNat
  | '0' :: 'o' :: s => (digits? 8 s).map Int.ofNat
  | '0' :: 'b' :: s => (digits? 2 s).map Int.ofNat
  | '+' :: s => (decimal? s).map Int.ofNat
  | '-' :: s => (decimal? s).map fun n => -(n : Int)
  | s => (decimal? s).map Int.ofNat

def word? (s : List Char) : Option Scalar :=
  if s = "true".toList then some (.bool true)
  else if s = "false".toList then some (.bool false)
  else do
    let n ← integer? s
    if -Nat.pow 2 63 ≤ n ∧ n < Nat.pow 2 63 then some (.integer n) else none

def endsWord (c : Char) : Bool := isSpace c || c == '\n' || c == '\r' || c == '#'

def takeScalar : List Char → Option (Scalar × List Char)
  | '"' :: '"' :: '"' :: s => (takeLongQuoted false (dropBreak s)).map stringOf
  | '"' :: s => (takeQuoted s).map stringOf
  | '\'' :: '\'' :: '\'' :: s => (takeLongLiteral (dropBreak s)).map stringOf
  | '\'' :: s => (takeLiteral s).map stringOf
  | s => (word? (s.takeWhile (!endsWord ·))).map fun v => (v, s.dropWhile (!endsWord ·))
where
  stringOf (t : List Char × List Char) : Scalar × List Char := (.string (String.ofList t.1), t.2)

theorem length_dropWhile_le (p : Char → Bool) (s : List Char) :
    (s.dropWhile p).length ≤ s.length := (List.dropWhile_sublist p).length_le

theorem push_eq_some_iff {c : Char} {x : Option (List Char × List Char)} {t r : List Char} :
    push c x = some (t, r) ↔ ∃ u, x = some (u, r) ∧ t = c :: u := by
  simp only [push, Option.map_eq_some_iff, Prod.mk.injEq, Prod.exists]
  grind

theorem length_takeQuoted {s t r : List Char} (h : takeQuoted s = some (t, r)) :
    r.length ≤ s.length := by
  fun_induction takeQuoted s generalizing t <;> simp only [List.length_cons, List.length_nil] <;>
    grind [push_eq_some_iff, Option.bind_eq_some_iff]

theorem length_takeLiteral {s t r : List Char} (h : takeLiteral s = some (t, r)) :
    r.length ≤ s.length := by
  fun_induction takeLiteral s generalizing t <;> grind [push_eq_some_iff, Option.bind_eq_some_iff]

theorem length_takeClosing (mark : Char) (s : List Char) :
    (takeClosing mark s).2.length ≤ s.length := by
  fun_cases takeClosing mark s <;> grind

theorem length_takeLongQuoted {skips : Bool} {s t r : List Char}
    (h : takeLongQuoted skips s = some (t, r)) : r.length ≤ s.length := by
  fun_induction takeLongQuoted skips s generalizing t <;>
    simp only [List.length_cons, List.length_nil] <;>
    grind [push_eq_some_iff, Option.bind_eq_some_iff, length_takeClosing]

theorem length_takeLongLiteral {s t r : List Char} (h : takeLongLiteral s = some (t, r)) :
    r.length ≤ s.length := by
  fun_induction takeLongLiteral s generalizing t <;>
    grind [push_eq_some_iff, Option.bind_eq_some_iff, length_takeClosing]

end ModuleGraph.Settings
