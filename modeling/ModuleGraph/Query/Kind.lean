namespace ModuleGraph

inductive QueryKind
  | tree
  /-- Modules with their direct dependencies. -/
  | deps
  | path
  | allPaths
  /-- Why modules are in the graph. -/
  | explain
  | repos
  | extensions
deriving DecidableEq

namespace QueryKind

def all : List QueryKind := [tree, deps, path, allPaths, explain, repos, extensions]

def name : QueryKind → String
  | tree => "tree"
  | deps => "deps"
  | path => "path"
  | allPaths => "all_paths"
  | explain => "explain"
  | repos => "show"
  | extensions => "show_extension"

def ofName? (s : String) : Option QueryKind := all.find? (·.name = s)

def names : String := ", ".intercalate (all.map name)

/-- Whether the query follows edges and so heeds the extension filter. -/
def followsEdges : QueryKind → Bool
  | repos | extensions => false
  | _ => true

/-- A depth that no graph reaches: the greatest number of 64 bits. -/
def unbounded : Nat := Nat.pow 2 64 - 1

def defaultDepth : QueryKind → Nat
  | explain => 1
  | deps => 2
  | _ => unbounded

/-- The depth in force; zero asks for none. -/
def effectiveDepth (kind : QueryKind) : Option Nat → Nat
  | some (depth + 1) => depth + 1
  | _ => kind.defaultDepth

end QueryKind

end ModuleGraph
