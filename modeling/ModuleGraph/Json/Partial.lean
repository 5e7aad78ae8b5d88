import ModuleGraph.Json

/-! What a JSON text holds as far as it can be read. Where a text breaks off or goes wrong its tree
ends, so that a fault of the text has a place among the things that are read before it. What nobody
asks for is only skipped, with fewer demands than reading makes. -/
namespace ModuleGraph.Json

/-- The fault of a string that the end of the text leaves open, when it is read: half of a surrogate
pair that is known to stand alone is met before that end. -/
def openStringFault (lexeme : List Char) : Fault :=
  if (unescape lexeme).isSome || (unescape (lexeme ++ ['\\', 'u', 'd', 'c', '0', '0'])).isSome then
    .endOfText
  else .malformed

inductive Ending
  | closed
  | stopped (fault : Fault)
  | openKey (lexeme : List Char)
deriving DecidableEq

namespace Ending

def check : Ending → Except Fault Unit
  | closed => .ok ()
  | stopped fault => .error fault
  | openKey lexeme => .error (openStringFault lexeme)

def skip : Ending → Except Fault Unit
  | closed => .ok ()
  | stopped fault => .error fault
  | openKey _ => .error .endOfText

end Ending

inductive Partial
  | null
  | bool (b : Bool)
  | number (lexeme : List Char)
  | string (lexeme : List Char)
  | array (items : List Partial) (ending : Ending)
  | object (members : List (List Char × Partial)) (ending : Ending)
  /-- The text ends where a number needs another digit. -/
  | openNumber
  | openString (lexeme : List Char)
  | missing (fault : Fault)

namespace Partial

instance : Inhabited Partial := ⟨null⟩

mutual

/-- Looks for a fault in what is not read. Strings and whole numbers have none, and a number has to
be whole even at the end of the text. -/
def skip : Partial → Except Fault Unit
  | .array items ending => do
    skipItems items
    ending.skip
  | .object members ending => do
    skipMembers members
    ending.skip
  | .openNumber => .error .malformed
  | .openString _ => .error .endOfText
  | .missing fault => .error fault
  | .null | .bool _ | .number _ | .string _ => .ok ()

def skipItems : List Partial → Except Fault Unit
  | [] => .ok ()
  | item :: items => do
    skip item
    skipItems items

def skipMembers : List (List Char × Partial) → Except Fault Unit
  | [] => .ok ()
  | (_, value) :: members => do
    skip value
    skipMembers members

end

end Partial

mutual

def toPartial : Json → Partial
  | .null => .null
  | .bool b => .bool b
  | .number lexeme => .number lexeme
  | .string lexeme => .string lexeme
  | .array items => .array (itemsToPartial items) .closed
  | .object members => .object (membersToPartial members) .closed

def itemsToPartial : List Json → List Partial
  | [] => []
  | item :: items => toPartial item :: itemsToPartial items

def membersToPartial : List (List Char × Json) → List (List Char × Partial)
  | [] => []
  | (key, value) :: members => (key, toPartial value) :: membersToPartial members

end

end ModuleGraph.Json
