import ModuleGraph.Query.Request
import ModuleGraph.Report

namespace ModuleGraph

structure CommandLine where
  verbose : Bool := false
  includeUnused : Bool := false
  snapshot : Option String := none
  baseModule : Option String := none
  start : Option String := none
  extensionUsages : Option String := none
  extensionFilter : Option String := none
  depth : Option Nat := none
  charset : Option Charset := none
  format : Option Format := none
  words : List String := []
deriving DecidableEq

namespace CommandLine

inductive Stop
  | help
  | summary
  | version
  | usage
deriving DecidableEq

def number? (s : String) : Option Nat :=
  let digits := match s.toList with
    | '+' :: digits => digits
    | digits => digits
  if digits.isEmpty || !digits.all Char.isDigit then none
  else
    let n := digits.foldl (fun n c => n * 10 + (c.toNat - '0'.toNat)) 0
    if n < Nat.pow 2 64 then some n else none

def path? (s : String) : Option String := if s = "" then none else some s

def format? (s : String) : Option Format :=
  if s = "text" then some .text else if s = "json" then some .json else none

def once {α : Type} (old new : Option α) : Except Stop (Option α) :=
  if old.isSome || new.isNone then .error .usage else .ok new

abbrev Setter := CommandLine → String → Except Stop CommandLine

def option? (name : String) : Option Setter :=
  match name with
  | "snapshot" => some fun c v => return { c with snapshot := ← once c.snapshot (path? v) }
  | "base-module" => some fun c v => return { c with baseModule := ← once c.baseModule v }
  | "from" => some fun c v => return { c with start := ← once c.start v }
  | "extension-usages" =>
    some fun c v => return { c with extensionUsages := ← once c.extensionUsages v }
  | "extension-filter" =>
    some fun c v => return { c with extensionFilter := ← once c.extensionFilter v }
  | "depth" => some fun c v => return { c with depth := ← once c.depth (number? v) }
  | "charset" => some fun c v => return { c with charset := ← once c.charset (Charset.ofName? v) }
  | "output" => some fun c v => return { c with format := ← once c.format (format? v) }
  | _ => none

def flag (c : CommandLine) (name : String) : Except Stop CommandLine :=
  match name with
  | "verbose" => if c.verbose then .error .usage else .ok { c with verbose := true }
  | "include-unused" =>
    if c.includeUnused then .error .usage else .ok { c with includeUnused := true }
  | "help" => .error .help
  | "version" => .error .version
  | _ => .error .usage

def letter (c : CommandLine) : Char → Except Stop CommandLine
  | 'v' => c.flag "verbose"
  | 'h' => .error .summary
  | 'V' => c.flag "version"
  | _ => .error .usage

inductive Form
  | word
  | letters (names : List Char)
  | long (name : String) (value : Option String)
  /-- Everything behind it is a word. -/
  | terminator
deriving DecidableEq

def formOf (arg : String) : Form :=
  match arg.toList with
  | ['-', '-'] => .terminator
  | '-' :: '-' :: rest =>
    match Text.splitFirst '=' rest with
    | none => .long (String.ofList rest) none
    | some (name, value) => .long (String.ofList name) (some (String.ofList value))
  | '-' :: c :: rest => .letters (c :: rest)
  | _ => .word

/-- Enters arguments one after another. The value of an option stands behind an equals sign or
is the next argument, if that is a word by its form. -/
def enter (c : CommandLine) : List String → Except Stop CommandLine
  | [] => .ok c
  | arg :: args =>
    match formOf arg with
    | .word => enter { c with words := c.words ++ [arg] } args
    | .terminator => .ok { c with words := c.words ++ args }
    | .letters names => do enter (← names.foldlM letter c) args
    | .long name none =>
      match option? name with
      | none => do enter (← c.flag name) args
      | some set =>
        match args with
        | [] => .error .usage
        | value :: args =>
          if formOf value = .word then do enter (← set c value) args else .error .usage
    | .long name (some value) =>
      match option? name with
      | none => .error .usage
      | some set => do enter (← set c value) args

/-- Takes the document's path from the surroundings if no argument gives it. -/
def orSnapshot (c : CommandLine) (fallback : Option String) : Except Stop CommandLine :=
  match c.snapshot, fallback with
  | none, some p => return { c with snapshot := ← once none (path? p) }
  | _, _ => .ok c

def ofArgs (args : List String) (fallback : Option String) : Except Stop CommandLine := do
  (← enter {} args).orSnapshot fallback

end CommandLine

end ModuleGraph
