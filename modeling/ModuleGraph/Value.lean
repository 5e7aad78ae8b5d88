import ModuleGraph.Json.Number
import ModuleGraph.Json.Partial
import ModuleGraph.SortedMap

namespace ModuleGraph

/-- An attribute value. The members of an object stand in increasing order of their names. -/
inductive Value
  | null
  | bool (b : Bool)
  | number (n : Number)
  | string (s : String)
  | array (items : List Value)
  | object (members : List (String × Value))

instance : Inhabited Value := ⟨.null⟩

namespace Value

mutual

def toJson : Value → Json
  | .null => .null
  | .bool b => .bool b
  | .number n => n.toJson
  | .string s => Json.ofString s
  | .array items => .array (itemsToJson items)
  | .object members => .object (membersToJson members)

def itemsToJson : List Value → List Json
  | [] => []
  | v :: vs => toJson v :: itemsToJson vs

def membersToJson : List (String × Value) → List (List Char × Json)
  | [] => []
  | (name, v) :: members => (Json.escape name.toList, toJson v) :: membersToJson members

end

mutual

/-- Reads a value in which arrays and objects are nested no deeper than `levels`. -/
def ofPartial (levels : Nat) : Json.Partial → Except Json.Fault Value
  | .null => .ok .null
  | .bool b => .ok (.bool b)
  | .number lexeme => .number <$> Number.read lexeme
  | .string lexeme => (fun s => .string (String.ofList s)) <$> Json.read lexeme
  | .array items ending =>
    if levels = 0 then .error .malformed
    else do
      let vs ← ofItems (levels - 1) items
      ending.check
      return .array vs
  | .object members ending =>
    if levels = 0 then .error .malformed
    else do
      let placed ← ofMembers (levels - 1) [] members
      ending.check
      return .object placed
  | .openNumber => .error .endOfText
  | .openString lexeme => .error (Json.openStringFault lexeme)
  | .missing fault => .error fault

def ofItems (levels : Nat) : List Json.Partial → Except Json.Fault (List Value)
  | [] => .ok []
  | item :: items => do
    let v ← ofPartial levels item
    let vs ← ofItems levels items
    return v :: vs

/-- Puts the members at their places; of several with one name the last stays. -/
def ofMembers (levels : Nat) (placed : List (String × Value)) :
    List (List Char × Json.Partial) → Except Json.Fault (List (String × Value))
  | [] => .ok placed
  | (key, item) :: members => do
    let name ← Json.read key
    let v ← ofPartial levels item
    ofMembers levels (SortedMap.place (String.ofList name) v placed) members

end

end Value

end ModuleGraph
