import ModuleGraph.Settings.Scalar

/-! The lines of settings files: entries, which give contents to a place, headings of tables, and
lines that say nothing. No setting lies deeper than in a table, so a place has one or two names,
and of tables and lists only empty ones can be part of a setting. Each reader takes something from
the front of a text and gives back the rest, which is shorter when a whole line is taken. -/
namespace ModuleGraph.Settings

/-- The name of a setting, or that of a table with the name of one of its members. -/
structure Place where
  name : String
  member : Option String
deriving DecidableEq

inductive Content
  | scalar (value : Scalar)
  | empty
  /-- A table of one member that holds nothing. -/
  | tag (name : String)
deriving DecidableEq

inductive Line
  | blank
  | entry (place : Place) (content : Content)
  | heading (place : Place)
deriving DecidableEq

def dropSpaces (s : List Char) : List Char := s.dropWhile isSpace

def takeMark (mark : Char) : List Char → Option (List Char)
  | [] => none
  | c :: s => if c = mark then some s else none

def isNameChar (c : Char) : Bool := c.isAlphanum || c == '-' || c == '_'

def takeName : List Char → Option (List Char × List Char)
  | '"' :: s => takeQuoted s
  | '\'' :: s => takeLiteral s
  | s =>
    let name := s.takeWhile isNameChar
    if name.isEmpty then none else some (name, s.dropWhile isNameChar)

def takePlace (s : List Char) : Option (Place × List Char) := do
  let (name, rest) ← takeName (dropSpaces s)
  match takeMark '.' (dropSpaces rest) with
  | none => return (⟨String.ofList name, none⟩, dropSpaces rest)
  | some rest =>
    let (member, rest) ← takeName (dropSpaces rest)
    return (⟨String.ofList name, some (String.ofList member)⟩, dropSpaces rest)

def takeListEnd (inComment : Bool) : List Char → Option (List Char)
  | [] => none
  | '\n' :: s => takeListEnd false s
  | '\r' :: '\n' :: s => takeListEnd false s
  | c :: s =>
    if inComment then if isPlain c then takeListEnd true s else none
    else if c = ']' then some s
    else if c = '#' then takeListEnd true s
    else if isSpace c then takeListEnd false s
    else none

/-- Takes an empty list or an empty table. The table stands on one line. -/
def takeEmpty : List Char → Option (List Char)
  | '[' :: s => takeListEnd false s
  | '{' :: s => takeMark '}' (dropSpaces s)
  | _ => none

def takeTag (s : List Char) : Option (List Char × List Char) := do
  let (name, rest) ← takeName (dropSpaces (← takeMark '{' s))
  let rest ← takeEmpty (dropSpaces (← takeMark '=' (dropSpaces rest)))
  return (name, ← takeMark '}' (dropSpaces rest))

def takeContent (s : List Char) : Option (Content × List Char) :=
  match takeEmpty s, takeTag s with
  | some rest, _ => some (.empty, rest)
  | none, some (name, rest) => some (.tag (String.ofList name), rest)
  | none, none => (takeScalar s).map fun taken => (.scalar taken.1, taken.2)

def lineEnd? (s : List Char) : Option (List Char) :=
  let rest := dropSpaces s
  let rest := if rest.head? = some '#' then rest.dropWhile isPlain else rest
  if rest.isEmpty then some [] else lineBreak? rest

def takeStatement (s : List Char) : Option (Line × List Char) :=
  match takeMark '[' s with
  | some rest => do
    let (place, rest) ← takePlace rest
    return (.heading place, ← lineEnd? (← takeMark ']' rest))
  | none => do
    let (place, rest) ← takePlace s
    let (content, rest) ← takeContent (dropSpaces (← takeMark '=' rest))
    return (.entry place content, ← lineEnd? rest)

def takeLine (s : List Char) : Option (Line × List Char) :=
  match lineEnd? s with
  | some rest => some (.blank, rest)
  | none => takeStatement (dropSpaces s)

theorem length_dropSpaces (s : List Char) : (dropSpaces s).length ≤ s.length :=
  length_dropWhile_le isSpace s

theorem length_takeMark {mark : Char} {s r : List Char} (h : takeMark mark s = some r) :
    r.length < s.length := by
  cases s <;> grind [takeMark]

theorem length_takeName {s t r : List Char} (h : takeName s = some (t, r)) :
    r.length ≤ s.length := by
  have hd := length_dropWhile_le isNameChar s
  unfold takeName at h
  split at h
  · have := length_takeQuoted h
    simp only [List.length_cons]; omega
  · have := length_takeLiteral h
    simp only [List.length_cons]; omega
  · grind

theorem length_takePlace {s r : List Char} {p : Place} (h : takePlace s = some (p, r)) :
    r.length ≤ s.length := by
  obtain ⟨⟨name, afterName⟩, hn, h⟩ := Option.bind_eq_some_iff.1 h
  have h₁ := length_dropSpaces s
  have h₂ := length_takeName hn
  have h₃ := length_dropSpaces afterName
  dsimp only at h
  split at h
  · simp only [pure, Option.some.injEq, Prod.mk.injEq] at h
    grind
  · next afterPoint hp =>
    obtain ⟨⟨member, afterMember⟩, hm, h⟩ := Option.bind_eq_some_iff.1 h
    have h₄ := length_takeMark hp
    have h₅ := length_dropSpaces afterPoint
    have h₆ := length_takeName hm
    have h₇ := length_dropSpaces afterMember
    simp only [pure, Option.some.injEq, Prod.mk.injEq] at h
    grind

theorem length_takeListEnd {inComment : Bool} {s r : List Char}
    (h : takeListEnd inComment s = some r) : r.length < s.length := by
  fun_induction takeListEnd inComment s <;> grind

theorem length_takeEmpty {s r : List Char} (h : takeEmpty s = some r) :
    r.length < s.length := by
  unfold takeEmpty at h
  split at h
  · have := length_takeListEnd h
    simp only [List.length_cons]; omega
  · next t =>
    have h₁ := length_takeMark h
    have h₂ := length_dropSpaces t
    simp only [List.length_cons]; omega
  · simp at h

theorem length_takeTag {s t r : List Char} (h : takeTag s = some (t, r)) :
    r.length < s.length := by
  obtain ⟨inside, hi, h⟩ := Option.bind_eq_some_iff.1 h
  obtain ⟨⟨name, afterName⟩, hn, h⟩ := Option.bind_eq_some_iff.1 h
  obtain ⟨afterSign, hs, h⟩ := Option.bind_eq_some_iff.1 h
  obtain ⟨afterEmpty, he, h⟩ := Option.bind_eq_some_iff.1 h
  obtain ⟨rest, hr, h⟩ := Option.bind_eq_some_iff.1 h
  have h₁ := length_takeMark hi
  have h₂ := length_dropSpaces inside
  have h₃ := length_takeName hn
  have h₄ := length_dropSpaces afterName
  have h₅ := length_takeMark hs
  have h₆ := length_dropSpaces afterSign
  have h₇ := length_takeEmpty he
  have h₈ := length_dropSpaces afterEmpty
  have h₉ := length_takeMark hr
  simp only [pure, Option.some.injEq, Prod.mk.injEq] at h
  grind

theorem length_lineBreak {s r : List Char} (h : lineBreak? s = some r) : r.length < s.length := by
  fun_cases lineBreak? s <;> grind [lineBreak?]

theorem length_dropBreak (s : List Char) : (dropBreak s).length ≤ s.length := by
  unfold dropBreak
  cases h : lineBreak? s with
  | none => simp
  | some r => simpa using Nat.le_of_lt (length_lineBreak h)

theorem length_takeScalar {s r : List Char} {v : Scalar} (h : takeScalar s = some (v, r)) :
    r.length ≤ s.length := by
  have hd := length_dropWhile_le (!endsWord ·) s
  unfold takeScalar at h
  split at h <;> obtain ⟨t, ht, he⟩ := Option.map_eq_some_iff.1 h
  · have := length_takeLongQuoted ht
    grind [takeScalar.stringOf, length_dropBreak]
  · have := length_takeQuoted ht
    grind [takeScalar.stringOf]
  · have := length_takeLongLiteral ht
    grind [takeScalar.stringOf, length_dropBreak]
  · have := length_takeLiteral ht
    grind [takeScalar.stringOf]
  · exact (Prod.mk.inj he).2 ▸ hd

theorem length_takeContent {s r : List Char} {c : Content} (h : takeContent s = some (c, r)) :
    r.length ≤ s.length := by
  unfold takeContent at h
  split at h
  · next he => grind [length_takeEmpty he]
  · next ht => grind [length_takeTag ht]
  · obtain ⟨taken, ht, he⟩ := Option.map_eq_some_iff.1 h
    exact (Prod.mk.inj he).2 ▸ length_takeScalar ht

theorem length_lineEnd {s r : List Char} (h : lineEnd? s = some r) :
    r = [] ∨ r.length < s.length := by
  have hs := length_dropSpaces s
  have hp := length_dropWhile_le isPlain (dropSpaces s)
  have he : ∀ {t : List Char}, t.length ≤ s.length →
      (if t.isEmpty then some [] else lineBreak? t) = some r → r = [] ∨ r.length < s.length := by
    intro t ht h
    split at h
    · exact .inl (Option.some.inj h).symm
    · exact .inr (Nat.lt_of_lt_of_le (length_lineBreak h) ht)
  unfold lineEnd? at h
  dsimp only at h
  split at h
  · exact he (by omega) h
  · exact he hs h

theorem length_takeStatement {s r : List Char} {l : Line} (h : takeStatement s = some (l, r)) :
    r = [] ∨ r.length < s.length := by
  unfold takeStatement at h
  split at h
  · next inside hi =>
    obtain ⟨⟨place, afterPlace⟩, hp, h⟩ := Option.bind_eq_some_iff.1 h
    obtain ⟨closed, hc, h⟩ := Option.bind_eq_some_iff.1 h
    obtain ⟨rest, hl, h⟩ := Option.bind_eq_some_iff.1 h
    have h₁ := length_takeMark hi
    have h₂ := length_takePlace hp
    have h₃ := length_takeMark hc
    have h₄ := length_lineEnd hl
    simp only [pure, Option.some.injEq, Prod.mk.injEq] at h
    grind
  · obtain ⟨⟨place, afterPlace⟩, hp, h⟩ := Option.bind_eq_some_iff.1 h
    obtain ⟨afterSign, hs, h⟩ := Option.bind_eq_some_iff.1 h
    obtain ⟨⟨content, afterContent⟩, hc, h⟩ := Option.bind_eq_some_iff.1 h
    obtain ⟨rest, hl, h⟩ := Option.bind_eq_some_iff.1 h
    have h₁ := length_takePlace hp
    have h₂ := length_takeMark hs
    have h₃ := length_dropSpaces afterSign
    have h₄ := length_takeContent hc
    have h₅ := length_lineEnd hl
    simp only [pure, Option.some.injEq, Prod.mk.injEq] at h
    grind

theorem length_takeLine {s r : List Char} {l : Line} (h : takeLine s = some (l, r)) :
    r = [] ∨ r.length < s.length := by
  have hs := length_dropSpaces s
  unfold takeLine at h
  split at h
  · next hl => grind [length_lineEnd hl]
  · exact (length_takeStatement h).imp_right fun h => Nat.lt_of_lt_of_le h hs

def lines (s : List Char) : Option (List Line) :=
  match _h : s with
  | [] => some []
  | _ :: _ =>
    match _hl : takeLine s with
    | none => none
    | some (line, rest) => (lines rest).map (line :: ·)
termination_by s.length
decreasing_by
  rcases length_takeLine _hl with h | h
  · simp [h]
  · rwa [← _h]

end ModuleGraph.Settings
