import ModuleGraph.Text

/-! JSON texts as trees whose leaves keep their spelling. What a number or a string stands for is
read only where somebody asks for it, so a part that nobody asks for may hold a number out of
range or half of a surrogate pair. -/
namespace ModuleGraph

inductive Json
  | null
  | bool (b : Bool)
  | number (lexeme : List Char)
  | string (lexeme : List Char)
  | array (items : List Json)
  | object (members : List (List Char × Json))

namespace Json

open Text (hexDigit hexValue?)

inductive Fault
  | endOfText
  | malformed
deriving DecidableEq

instance : Inhabited Json := ⟨null⟩

def codeUnit? (a b c d : Char) : Option Nat := do
  let a ← hexValue? a
  let b ← hexValue? b
  let c ← hexValue? c
  let d ← hexValue? d
  return ((a * 16 + b) * 16 + c) * 16 + d

def simpleEscape? : Char → Option Char
  | '"' => some '"'
  | '\\' => some '\\'
  | '/' => some '/'
  | 'b' => some '\x08'
  | 'f' => some '\x0c'
  | 'n' => some '\n'
  | 'r' => some '\r'
  | 't' => some '\t'
  | _ => none

def isLeading (unit : Nat) : Bool := 0xD800 ≤ unit && unit ≤ 0xDBFF

def isTrailing (unit : Nat) : Bool := 0xDC00 ≤ unit && unit ≤ 0xDFFF

/-- Quotes, backslashes and control characters are escaped; nothing else is. -/
def escapeChar (c : Char) : List Char :=
  if c = '"' then ['\\', '"']
  else if c = '\\' then ['\\', '\\']
  else if c = '\x08' then ['\\', 'b']
  else if c = '\x0c' then ['\\', 'f']
  else if c = '\n' then ['\\', 'n']
  else if c = '\r' then ['\\', 'r']
  else if c = '\t' then ['\\', 't']
  else if c.toNat < 0x20 then
    ['\\', 'u', '0', '0', hexDigit (c.toNat / 16), hexDigit (c.toNat % 16)]
  else [c]

def escape (s : List Char) : List Char := s.flatMap escapeChar

/-- The text that a spelling stands for; none where half of a surrogate pair stands alone. -/
def unescape : List Char → Option (List Char)
  | [] => some []
  | '\\' :: 'u' :: a :: b :: c :: d :: '\\' :: 'u' :: e :: f :: g :: h :: s =>
    match codeUnit? a b c d, codeUnit? e f g h with
    | some hi, some lo =>
      if isLeading hi then
        if isTrailing lo then
          (unescape s).map (Char.ofNat (0x10000 + (hi - 0xD800) * 0x400 + (lo - 0xDC00)) :: ·)
        else none
      else if isTrailing hi then none
      else (unescape ('\\' :: 'u' :: e :: f :: g :: h :: s)).map (Char.ofNat hi :: ·)
    | _, _ => none
  | '\\' :: 'u' :: a :: b :: c :: d :: s =>
    match codeUnit? a b c d with
    | some unit =>
      if isLeading unit || isTrailing unit then none
      else (unescape s).map (Char.ofNat unit :: ·)
    | none => none
  | '\\' :: c :: s => do
    let c ← simpleEscape? c
    (unescape s).map (c :: ·)
  | c :: s => (unescape s).map (c :: ·)

def read (lexeme : List Char) : Except Fault (List Char) :=
  match unescape lexeme with
  | some s => .ok s
  | none => .error .malformed

def ofString (s : String) : Json := .string (escape s.toList)

end Json

end ModuleGraph
