import TreeMacros.Action
import TreeMacros.Import.Path
import TreeMacros.Launch.Arguments

/-!
# The command

What a command line does: it runs a module or a script as the main program, or an interactive
console with a history, or it only prints something.
-/

namespace TreeMacros.Launch

/-- The directories and files around the command. The search path is that of `places`. -/
structure Surroundings where
  places : Places
  files : List Path

/-- What is done with the terminal. -/
inductive TerminalCall where
  | completer (names : List String)
  | setCompleter
  | bind (text : String)
  | readHistory (path : String)
  | console (names : List String)
  | interact
  | setHistoryLength (n : Nat)
  | writeHistory (path : String) (hasDirectory : Bool)
  deriving DecidableEq, Repr

inductive Outcome where
  /-- Runs a module as the main program. -/
  | run (module : String) (asScript : Bool)
  | console
  | exit (status : Nat) (printed : String)
  deriving DecidableEq, Repr

/-- What has come about so far. -/
structure Effects where
  search : List String
  terminal : List TerminalCall

abbrev M := Act Effects

def call (c : TerminalCall) : M Unit := modify fun e => { e with terminal := e.terminal ++ [c] }

def searchFirst (dir : String) : M Unit := do
  match (← get).search with
  | [] => throw (.fault (.noIndex "list"))
  | first :: _ => if first != dir then modify fun e => { e with search := dir :: e.search }

/-- Where the history of the console is kept, below the home directory. -/
def historyDirectory (places : Places) : Path := ⟨places.home.parts ++ [".config", "mcpyrate"]⟩

def historyFile (places : Places) : String :=
  (historyDirectory places).text ++ "/macropython_history"

/-- Runs the console, and keeps its history however that ends. -/
def console (s : Surroundings) (plotting : Bool) : M Outcome := do
  if plotting then throw (.fault (.noModule "numpy"))
  call (.completer [])
  call .setCompleter
  call (.bind "tab: complete")
  call (.readHistory (historyFile s.places))
  let result ← Act.attempt do
    searchFirst ""
    call (.console [])
    call .interact
  call (.setHistoryLength 1000)
  call (.writeHistory (historyFile s.places) true)
  match result with
  | .ok _ => return .console
  | .error e => throw e

def scriptModule (below : String) : String :=
  let name := ".".intercalate (below.splitOn "/")
  if name.endsWith ".__init__.py" then String.ofList (name.toList.take (name.length - 12))
  else if name.endsWith ".py" then String.ofList (name.toList.take (name.length - 3))
  else name

/-- Runs a script, with its directory first in the search path. -/
def runScript (s : Surroundings) (filename : String) : M Outcome := do
  let path ← s.places.resolve filename
  if !s.files.contains path then throw (.report (.cannotOpen filename) none)
  searchFirst path.parent.text
  let (_, below) ← Places.relative { s.places with search := (← get).search } filename
  return .run (scriptModule below) true

def command (s : Surroundings) (args : List String) : M Outcome := do
  match parse args with
  | .help => return .exit 0 helpText
  | .version => return .exit 0 versionText
  | .misuse => return .exit 2 ""
  | .options o =>
    if o.interactive then console s o.plotting
    else
      let file := o.file.getD ""
      let module := o.module.getD ""
      if file.isEmpty && module.isEmpty then return .exit 0 helpText
      else if !file.isEmpty && !module.isEmpty then throw (.report .oneProgram none)
      else if !module.isEmpty then
        searchFirst s.places.current.text
        return .run module false
      else runScript s file

def start (s : Surroundings) : Effects := ⟨s.places.search, []⟩

end TreeMacros.Launch
