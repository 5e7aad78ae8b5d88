import ModuleGraph.Program

namespace ModuleGraph

def ReadFault.ofError : IO.Error → ReadFault
  | .noFileOrDirectory _ _ _ => .notFound
  | .inappropriateType _ 21 _ => .isDirectory
  | .inappropriateType _ _ _ => .notDirectory
  | .invalidArgument _ 36 _ => .nameTooLong
  | .userError _ => .other "stream did not contain valid UTF-8"
  | e => .other (toString e)

def readText (path : String) : IO (Except ReadFault String) := do
  try return .ok (← IO.FS.readFile path)
  catch e => return .error (.ofError e)

/-- The directory of settings for all projects: below the one that is set for settings, else
below the home directory. -/
def settingsDirectory : IO (Option String) := do
  match ← IO.getEnv "XDG_CONFIG_HOME" with
  | some directory =>
    if directory.startsWith "/" then return some (directory ++ "/modquery")
  | none => pure ()
  return (← IO.getEnv "HOME").map (· ++ "/.config/modquery")

def surroundings : IO Surroundings := do
  return {
    workingDirectory := (← IO.currentDir).toString
    settingsDirectory := ← settingsDirectory
    snapshot := ← IO.getEnv "MODQUERY_SNAPSHOT" }

end ModuleGraph

open ModuleGraph

def main (args : List String) : IO UInt32 := do
  let around ← surroundings
  let finished := Program.exit (← (Program.run readText around args).run)
  IO.print finished.stdout
  IO.eprint finished.stderr
  return finished.code.toUInt32
