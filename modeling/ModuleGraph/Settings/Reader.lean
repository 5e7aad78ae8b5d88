import ModuleGraph.Settings
import ModuleGraph.Settings.Line

/-! What the lines of a settings file say. All settings are entries with a scalar; the character
set may also be the one empty member of a table, which an entry, a place of two names or headings
give. -/
namespace ModuleGraph.Settings

namespace Content

def string? : Content → Option String
  | .scalar (.string s) => some s
  | _ => none

def bool? : Content → Option Bool
  | .scalar (.bool b) => some b
  | _ => none

def limit? : Content → Option Nat
  | .scalar (.integer (.ofNat n)) => some n
  | _ => none

/-- A character set by its name, or as the one member of a table. -/
def charset? : Content → Option Charset
  | .scalar (.string s) => Charset.ofName? s
  | .tag name => Charset.ofName? name
  | _ => none

end Content

inductive Table
  | top
  | charset
  | charsetMember
deriving DecidableEq

structure Draft where
  settings : Settings := {}
  table : Table := .top
  /-- Whether a heading may still open the table of the character set: it is the first to do so,
  and no entry has set anything there. -/
  opens : Bool := true
deriving DecidableEq

def once {α : Type} (name : String) (old new : Option α) : Except Fault (Option α) :=
  if old.isSome then .error (.repeatedName name)
  else if new.isNone then .error (.wrongValue name)
  else .ok new

/-- The fault of a table under a name: no other setting than the character set can be one. -/
def tableFault (name : String) : Fault :=
  if name ∈ ["snapshot", "charset", "include_unused", "max_paths", "max_steps"] then
    .wrongValue name
  else .unknownName name

def put (s : Settings) (name : String) (c : Content) : Except Fault Settings :=
  match name with
  | "snapshot" => return { s with snapshot := ← once name s.snapshot c.string? }
  | "charset" => return { s with charset := ← once name s.charset c.charset? }
  | "include_unused" => return { s with includeUnused := ← once name s.includeUnused c.bool? }
  | "max_paths" => return { s with maxPaths := ← once name s.maxPaths c.limit? }
  | "max_steps" => return { s with maxSteps := ← once name s.maxSteps c.limit? }
  | name => .error (.unknownName name)

namespace Draft

def putMember (d : Draft) (member : String) : Except Fault Draft :=
  return { d with settings := ← d.settings.put "charset" (.tag member) }

def entry (d : Draft) (p : Place) (c : Content) : Except Fault Draft :=
  match d.table, p.member with
  | .top, none =>
    return { d with settings := ← d.settings.put p.name c, opens := d.opens && p.name ≠ "charset" }
  | .top, some member =>
    if p.name = "charset" ∧ c = .empty then { d with opens := false }.putMember member
    else .error (tableFault p.name)
  | .charset, none => if c = .empty then d.putMember p.name else .error (.wrongValue "charset")
  | _, _ => .error (.wrongValue "charset")

def heading (d : Draft) (p : Place) : Except Fault Draft :=
  if p.name ≠ "charset" then .error (tableFault p.name)
  else
    match p.member with
    | some member => { d with table := .charsetMember }.putMember member
    | none =>
      if d.opens then .ok { d with table := .charset, opens := false }
      else .error (.repeatedName p.name)

def add (d : Draft) : Line → Except Fault Draft
  | .blank => .ok d
  | .entry p c => d.entry p c
  | .heading p => d.heading p

/-- The settings after the last line. A table that was opened for the character set must have got
its member. -/
def finish (d : Draft) : Except Fault Settings :=
  if !d.opens && d.settings.charset.isNone then .error (.wrongValue "charset")
  else .ok d.settings

end Draft

def dropMark (s : List Char) : List Char := if s.head? = some '\uFEFF' then s.tail else s

def ofText (s : String) : Except Fault Settings :=
  match lines (dropMark s.toList) with
  | none => .error .malformed
  | some ls => (ls.foldlM Draft.add {}) >>= Draft.finish

end ModuleGraph.Settings
