import ModuleGraph.ExtensionId

namespace ModuleGraph

inductive GraphError
  | missingRoot
  | duplicateModule (key : Key)
  | danglingEdge (module : Key) (name : String) (target : Key)
  /-- An extension is said to cause a dependency that the module does not have. -/
  | unknownExtensionEdge (module : Key) (name : String)
  | dependencyCycle (participants : List Key)
  | unreachable (key : Key)
  | unknownUsageModule (module : Key) (extension : ExtensionId)
  | unknownModule (key : Key)
deriving DecidableEq

def Key.listText (keys : List Key) : String := ", ".intercalate (keys.map Key.text)

def GraphError.message : GraphError → String
  | .missingRoot => "snapshot has no root module"
  | .duplicateModule key => "module " ++ key.text ++ " is declared more than once"
  | .danglingEdge module name target =>
    "module " ++ module.text ++ " depends on unknown module " ++ target.text ++
      " (as '" ++ name ++ "')"
  | .unknownExtensionEdge module name =>
    "module " ++ module.text ++ " attributes unknown dependency '" ++ name ++ "' to an extension"
  | .dependencyCycle participants => "dependency cycle among: " ++ Key.listText participants
  | .unreachable key => "module " ++ key.text ++ " is not reachable from the root module"
  | .unknownUsageModule module extension =>
    "usage of " ++ extension.text ++ " by unknown module " ++ module.text
  | .unknownModule key => "unknown module: " ++ key.text

end ModuleGraph
