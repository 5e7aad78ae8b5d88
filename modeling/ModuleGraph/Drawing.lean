import ModuleGraph.Traversal.Tree
import ModuleGraph.Traversal.Path

namespace ModuleGraph

inductive Charset
  | utf8
  | ascii
deriving DecidableEq

namespace Charset

def name : Charset → String
  | utf8 => "utf8"
  | ascii => "ascii"

def ofName? (s : String) : Option Charset := [utf8, ascii].find? (·.name = s)

def branch (last : Bool) : Charset → String
  | utf8 => if last then "└───" else "├───"
  | ascii => "|___"

/-- One column in front of a branch: whether the module above has further entries. -/
def column (more : Bool) : Charset → String
  | utf8 => if more then "│   " else "    "
  | ascii => if more then "|   " else "    "

end Charset

def Cause.mark : Cause → String
  | direct => ""
  | extension id => " (via " ++ id.text ++ ")"

namespace Entry

def label (e : Entry) : String :=
  e.key.text ++ (e.cause.map Cause.mark).getD "" ++ if e.referenceOnly then " (*)" else ""

end Entry

namespace Tree

/-- Whether each entry is the last one of its parent, with the depths at which an entry comes
before the next one of a lesser depth. -/
def lastFlags : List Entry → List Bool × List Nat
  | [] => ([], [])
  | e :: es =>
    let (flags, depths) := lastFlags es
    (decide (e.depth ∉ depths) :: flags, e.depth :: depths.filter (· < e.depth))

/-- The columns in front of what comes below an entry: for each module above it, the topmost
one apart, whether it has further entries. -/
def columnsBelow (columns : List Bool) (e : Entry) (last : Bool) : List Bool :=
  if e.depth = 0 then [] else columns.take (e.depth - 1) ++ [!last]

def line (charset : Charset) (columns : List Bool) (e : Entry) (last : Bool) : String :=
  let lead :=
    if e.depth = 0 then ""
    else String.join ((columns.take (e.depth - 1)).map charset.column) ++ charset.branch last
  lead ++ e.label ++ "\n"

def lines (charset : Charset) (columns : List Bool) : List (Entry × Bool) → List String
  | [] => []
  | (e, last) :: es =>
    line charset columns e last :: lines charset (columnsBelow columns e last) es

def draw (charset : Charset) (t : Tree) : String :=
  String.join (lines charset [] (t.entries.zip (lastFlags t.entries).1))

end Tree

namespace Path

def stepsText : List Key → List Cause → String
  | [], _ => ""
  | k :: ks, causes =>
    " -> " ++ k.text ++ (causes.head?.map Cause.mark).getD "" ++ stepsText ks causes.tail

def text (p : Path) : String :=
  match p.nodes with
  | [] => ""
  | k :: ks => k.text ++ stepsText ks p.causes

end Path

end ModuleGraph
