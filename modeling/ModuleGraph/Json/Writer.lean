import ModuleGraph.Json

namespace ModuleGraph.Json

def between (opening closing : Char) (inner : List Char) : List Char :=
  opening :: inner ++ [closing]

def quoted (lexeme : List Char) : List Char := between '"' '"' lexeme

def words : Bool → List Char
  | true => ['t', 'r', 'u', 'e']
  | false => ['f', 'a', 'l', 's', 'e']

mutual

def compact : Json → List Char
  | .null => ['n', 'u', 'l', 'l']
  | .bool b => words b
  | .number lexeme => lexeme
  | .string lexeme => quoted lexeme
  | .array items => between '[' ']' (compactItems items)
  | .object members => between '{' '}' (compactMembers members)

def compactItems : List Json → List Char
  | [] => []
  | [item] => compact item
  | item :: items => compact item ++ ',' :: compactItems items

def compactMembers : List (List Char × Json) → List Char
  | [] => []
  | [(key, value)] => quoted key ++ ':' :: compact value
  | (key, value) :: members =>
    quoted key ++ ':' :: compact value ++ ',' :: compactMembers members

end

def newLine (level : Nat) : List Char := '\n' :: List.replicate (2 * level) ' '

mutual

/-- The text with each item and member in a line of its own; empty arrays and objects stay
whole. -/
def pretty (level : Nat) : Json → List Char
  | .null => ['n', 'u', 'l', 'l']
  | .bool b => words b
  | .number lexeme => lexeme
  | .string lexeme => quoted lexeme
  | .array [] => ['[', ']']
  | .array items => between '[' ']' (prettyItems (level + 1) items ++ newLine level)
  | .object [] => ['{', '}']
  | .object members => between '{' '}' (prettyMembers (level + 1) members ++ newLine level)

def prettyItems (level : Nat) : List Json → List Char
  | [] => []
  | [item] => newLine level ++ pretty level item
  | item :: items => newLine level ++ pretty level item ++ ',' :: prettyItems level items

def prettyMembers (level : Nat) : List (List Char × Json) → List Char
  | [] => []
  | [(key, value)] => newLine level ++ quoted key ++ ':' :: ' ' :: pretty level value
  | (key, value) :: members =>
    newLine level ++ quoted key ++ ':' :: ' ' :: pretty level value ++
      ',' :: prettyMembers level members

end

def compactText (j : Json) : String := String.ofList (compact j)

def prettyText (j : Json) : String := String.ofList (pretty 0 j)

end ModuleGraph.Json
