import ModuleGraph.Json.Partial
import ModuleGraph.Json.Token

/-! Reading a JSON tree from tokens, one token at a step, with the arrays and objects that are
still open on a stack. Reading never fails: where it has to stop, the tree says why. -/
namespace ModuleGraph.Json

/-- An array or object that is still open: what it holds so far, the last first, and for an
object the key whose value comes next. -/
inductive Frame
  | array (items : List Partial)
  | object (members : List (List Char × Partial)) (key : List Char)

inductive Awaiting
  | value
  | firstItem
  | firstKey
  | key (members : List (List Char × Partial))
  | colon (members : List (List Char × Partial)) (key : List Char)
  | afterValue (value : Partial)

/-- A text: its value, and whether anything follows that. -/
structure Reading where
  value : Partial
  trailing : Bool

namespace Reader

def startValue? (t : Token) (stack : List Frame) : Option (Awaiting × List Frame) :=
  match t with
  | .openArray => some (.firstItem, stack)
  | .openObject => some (.firstKey, stack)
  | .string lexeme => some (.afterValue (.string lexeme), stack)
  | .number lexeme => some (.afterValue (.number lexeme), stack)
  | .bool b => some (.afterValue (.bool b), stack)
  | .null => some (.afterValue .null, stack)
  | _ => none

def startKey? (t : Token) (members : List (List Char × Partial)) (stack : List Frame) :
    Option (Awaiting × List Frame) :=
  match t with
  | .string key => some (.colon members key, stack)
  | _ => none

def step? (t : Token) : Awaiting → List Frame → Option (Awaiting × List Frame)
  | .value, stack => startValue? t stack
  | .firstItem, stack =>
    match t with
    | .closeArray => some (.afterValue (.array [] .closed), stack)
    | t => startValue? t (.array [] :: stack)
  | .firstKey, stack =>
    match t with
    | .closeObject => some (.afterValue (.object [] .closed), stack)
    | t => startKey? t [] stack
  | .key members, stack => startKey? t members stack
  | .colon members key, stack =>
    match t with
    | .colon => some (.value, .object members key :: stack)
    | _ => none
  | .afterValue value, .array items :: stack =>
    match t with
    | .comma => some (.value, .array (value :: items) :: stack)
    | .closeArray => some (.afterValue (.array (value :: items).reverse .closed), stack)
    | _ => none
  | .afterValue value, .object members key :: stack =>
    match t with
    | .comma => some (.key ((key, value) :: members), stack)
    | .closeObject =>
      some (.afterValue (.object ((key, value) :: members).reverse .closed), stack)
    | _ => none
  | .afterValue _, [] => none

/-- What stands in the place of a value: the end of the text or a token that starts none. -/
def valueInstead : Option Token → Partial
  | none => .missing .endOfText
  | some (.openString lexeme) => .openString lexeme
  | some .openNumber => .openNumber
  | some (.broken fault) => .missing fault
  | some _ => .missing .malformed

def endingAt : Option Token → Ending
  | none => .stopped .endOfText
  | some _ => .stopped .malformed

def endingAtKey : Option Token → Ending
  | some (.openString lexeme) => .openKey lexeme
  | t => endingAt t

def within (ending : Ending) (value : Partial) : List Frame → Partial
  | [] => value
  | .array items :: stack => within ending (.array (value :: items).reverse ending) stack
  | .object members key :: stack =>
    within ending (.object ((key, value) :: members).reverse ending) stack

def halt (t : Option Token) (awaiting : Awaiting) (stack : List Frame) : Partial :=
  match awaiting with
  | .value => within (endingAt t) (valueInstead t) stack
  | .firstItem => within (endingAt t) (valueInstead t) (.array [] :: stack)
  | .firstKey => within (endingAt t) (.object [] (endingAtKey t)) stack
  | .key members => within (endingAt t) (.object members.reverse (endingAtKey t)) stack
  | .colon members key =>
    let value := match t with
      | none => .missing .endOfText
      | some _ => .missing .malformed
    within (endingAt t) value (.object members key :: stack)
  | .afterValue value =>
    match stack with
    | [] => value
    | _ => within (endingAt t) value stack

def run : List Token → Awaiting → List Frame → Reading
  | [], .afterValue value, [] => ⟨value, false⟩
  | _ :: _, .afterValue value, [] => ⟨value, true⟩
  | [], awaiting, stack => ⟨halt none awaiting stack, false⟩
  | t :: ts, awaiting, stack =>
    match step? t awaiting stack with
    | some (awaiting, stack) => run ts awaiting stack
    | none => ⟨halt (some t) awaiting stack, false⟩

end Reader

def Reading.ofText (s : String) : Reading := Reader.run (Token.ofText s.toList) .value []

end ModuleGraph.Json
