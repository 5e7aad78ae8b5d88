import ModuleGraph.Drawing
import ModuleGraph.Traversal.AllPaths

namespace ModuleGraph

structure Settings where
  snapshot : Option String := none
  charset : Option Charset := none
  includeUnused : Option Bool := none
  maxPaths : Option Nat := none
  maxSteps : Option Nat := none
deriving DecidableEq

namespace Settings

/-- Lays other settings over these. -/
def merge (s other : Settings) : Settings where
  snapshot := other.snapshot <|> s.snapshot
  charset := other.charset <|> s.charset
  includeUnused := other.includeUnused <|> s.includeUnused
  maxPaths := other.maxPaths <|> s.maxPaths
  maxSteps := other.maxSteps <|> s.maxSteps

def limits (s : Settings) : Limits where
  maxPaths := s.maxPaths.getD Limits.default.maxPaths
  maxSteps := s.maxSteps.getD Limits.default.maxSteps

/-- A path as seen from a directory: an absolute one stands for itself. -/
def pathFrom (directory path : String) : String :=
  if path.startsWith "/" then path else directory ++ "/" ++ path

def placedIn (directory : String) (s : Settings) : Settings :=
  { s with snapshot := s.snapshot.map (pathFrom directory) }

inductive Fault
  | malformed
  | unknownName (name : String)
  | repeatedName (name : String)
  | wrongValue (name : String)
deriving DecidableEq

def Fault.message : Fault → String
  | .malformed => "malformed settings"
  | .unknownName name => "unknown setting '" ++ name ++ "'"
  | .repeatedName name => "setting '" ++ name ++ "' is given twice"
  | .wrongValue name => "wrong value for setting '" ++ name ++ "'"

end Settings

end ModuleGraph
