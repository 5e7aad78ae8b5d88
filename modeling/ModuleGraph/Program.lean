import ModuleGraph.CommandLine
import ModuleGraph.Document.Reader
import ModuleGraph.Settings.Reader

/-! One invocation from its arguments to what it prints. Files are read through an operation that
the caller gives, so everything else here is plain computation. -/
namespace ModuleGraph

structure Surroundings where
  workingDirectory : String
  settingsDirectory : Option String
  snapshot : Option String

inductive Failure
  | stopped (stop : CommandLine.Stop)
  | settings (path : String) (fault : Settings.Fault)
  | unreadable (fault : ReadFault)
  | noSnapshot
  | query (error : QueryError)
deriving DecidableEq

namespace Program

def projectSettings : String := ".modquery.toml"

def versionText : String := "modquery 0.1.0\n"

def purpose : List String := [
  "Query the external module dependency graph of a build",
  "",
  "Usage: modquery [OPTIONS] [QUERY]...",
  ""]

def optionLines : List String := [
  "Options:",
  "  -v, --verbose",
  "          Enable verbose output",
  "      --snapshot <SNAPSHOT>",
  "          Snapshot document of the evaluated dependency graph [env: MODQUERY_SNAPSHOT=]",
  "      --base-module <BASE_MODULE>",
  "          Module whose dependency names bare references refer to [default: <root>]",
  "      --from <FROM>",
  "          Comma-separated start modules of graph queries [default: <root>]",
  "      --extension-usages <EXTENSION_USAGES>",
  "          Comma-separated modules whose extension usages show_extension reports [default: ]",
  "      --extension-filter <EXTENSION_FILTER>",
  "          Comma-separated extensions whose edges graph queries follow",
  "      --include-unused",
  "          Allow module versions that lost version selection",
  "      --depth <DEPTH>",
  "          Maximum depth of listed trees",
  "      --charset <CHARSET>",
  "          Characters used to draw trees [possible values: utf8, ascii]",
  "      --output <OUTPUT>",
  "          Output format [default: text] [possible values: text, json]",
  "  -h, --help",
  "          Print help (see more with '--help')",
  "  -V, --version",
  "          Print version",
  ""]

def summaryText : String := "\n".intercalate (purpose ++ [
  "Arguments:",
  "  [QUERY]...  Query type followed by its arguments",
  ""] ++ optionLines)

def helpText : String := "\n".intercalate (purpose ++ [
  "Query types:",
  "  tree                          dependency tree of the --from modules",
  "  deps <MODULE>...              the modules and their direct dependencies",
  "  path <MODULE>...              shortest path from --from to any target",
  "  all_paths <MODULE>...         every path from --from to the targets",
  "  explain <MODULE>...           why the targets are in the graph",
  "  show <MODULE>...              repository rules backing the modules",
  "  show_extension <EXT>...       usages of module extensions",
  "",
  "Module references are bare dependency names of the base module (foo),",
  "exact versions (foo@1.2, foo@_ for no version) or <root>.",
  "Extension references are written module%extension.",
  ""] ++ optionLines)

structure Printed where
  text : String
  warnings : List Warning
deriving DecidableEq

structure Exit where
  code : Nat
  stdout : String
  stderr : String
deriving DecidableEq

def complaint (code : Nat) (message : String) : Exit :=
  ⟨code, "", "error: " ++ message ++ "\nType 'modquery --help' for syntax and help.\n"⟩

def exit : Except Failure Printed → Exit
  | .ok printed =>
    ⟨0, printed.text, String.join (printed.warnings.map fun w => "warning: " ++ w.message ++ "\n")⟩
  | .error (.stopped .help) => ⟨0, helpText, ""⟩
  | .error (.stopped .summary) => ⟨0, summaryText, ""⟩
  | .error (.stopped .version) => ⟨0, versionText, ""⟩
  | .error (.stopped .usage) => complaint 2 "unexpected arguments"
  | .error (.settings path fault) =>
    complaint 2 ("invalid configuration in " ++ path ++ ": " ++ fault.message)
  | .error (.unreadable fault) => complaint 3 fault.message
  | .error .noSnapshot =>
    complaint 2 "no snapshot given; pass --snapshot or set 'snapshot' in .modquery.toml"
  | .error (.query error) => complaint error.exitCode error.message

/-- The options of the query: what the arguments say counts more than the settings. -/
def options (c : CommandLine) (s : Settings) : Options where
  baseModule := c.baseModule.getD Key.rootText
  start := c.start.getD Key.rootText
  extensionUsages := c.extensionUsages.getD ""
  extensionFilter := c.extensionFilter
  includeUnused := c.includeUnused || s.includeUnused.getD false
  depth := c.depth
  limits := s.limits

/-- One layer of settings. A file that is not there sets nothing. -/
def layer (directory path : String) (content : Except ReadFault String) :
    Except Failure Settings :=
  match content with
  | .ok text =>
    match Settings.ofText text with
    | .ok s => .ok (s.placedIn directory)
    | .error fault => .error (.settings path fault)
  | .error (.other description) => .error (.unreadable (.other description))
  | .error _ => .ok {}

def document (content : Except ReadFault String) : Except QueryError Document :=
  match content with
  | .ok text => (Document.ofText text).mapError fun e => .evaluationFailed (.document e)
  | .error fault => .error (.evaluationFailed (.unreadable fault))

def answer (d : Document) (q : Request) : Answer Outcome :=
  match d.snapshot with
  | .ok s => q.run s d.repoRules.get? false
  | .error e => .fail (.evaluationFailed (.graph e))

abbrev Reading (m : Type → Type) := String → m (Except ReadFault String)

variable {m : Type → Type} [Monad m]

/-- Reads the document at a path. No name of a file holds the character that ends names. -/
def documentAt (read : Reading m) (path : String) : ExceptT Failure m Document := do
  let content ← if '\x00' ∈ path.toList then pure (.error .nulInName) else read path
  (document content).mapError Failure.query

def settingsIn (read : Reading m) (directory file : String) :
    ExceptT Failure m Settings := do
  let path := directory ++ "/" ++ file
  layer directory path (← read path)

/-- The settings in force: those of the project over those for all projects. -/
def settings (read : Reading m) (around : Surroundings) : ExceptT Failure m Settings := do
  let common ← match around.settingsDirectory with
    | none => pure {}
    | some directory => settingsIn read directory "config.toml"
  return common.merge (← settingsIn read around.workingDirectory projectSettings)

def query (read : Reading m) (c : CommandLine) (s : Settings) :
    ExceptT Failure m Printed := do
  match c.snapshot <|> s.snapshot with
  | none => throw .noSnapshot
  | some path =>
    let q ← (Request.ofWords c.words (options c s)).mapError Failure.query
    let d ← documentAt read path
    let a := answer d q
    let outcome ← a.result.mapError Failure.query
    let charset := (c.charset <|> s.charset).getD .utf8
    return ⟨outcome.render (c.format.getD .text) charset, if c.verbose then a.warnings else []⟩

def run (read : Reading m) (around : Surroundings) (args : List String) :
    ExceptT Failure m Printed := do
  let c ← (CommandLine.ofArgs args around.snapshot).mapError Failure.stopped
  query read c (← settings read around)

end Program

end ModuleGraph
