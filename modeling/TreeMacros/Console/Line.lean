import TreeMacros.Console.Session

/-!
# The line console

Reads input line by line until it is complete, expands its macros, and hands the result over to be
run. A question mark after an expression asks for its documentation, two ask for its source text,
and `macros?` shows the bindings.
-/

namespace TreeMacros.Console

/-- What can be seen of the console. -/
inductive Event where
  | prompt (text : String)
  | write (text : String)
  /-- The greeting of the host. -/
  | greet
  | run (tree : Value)
  | showError (e : Error)

structure Line where
  session : Session
  events : List Event
  /-- Whether a text is the start of an input that goes on. -/
  isIncomplete : String → Bool

namespace Line

abbrev M := Act Line

def defaultFilename : String := "<interactive input>"

def start (world : World) (filename : String) : Line := ⟨Session.start world filename, [], fun _ => false⟩

def lift {α : Type} (act : Session.M α) : M α := fun c =>
  let (r, s) := act c.session
  (r, { c with session := s })

def emit (e : Event) : M Unit := modify fun c => { c with events := c.events ++ [e] }

def runInternal (text : String) : M Unit := do
  let tree ← lift (Session.lift (Expansion.parse text))
  emit (.run (.node .interactive [("body", ← tree.attr "body")]))

/-- Imports a macro plainly, unless it was defined in the session. -/
def importPlainly (entry : String × Binding) : M Unit := do
  match ← entry.2.importStatement? entry.1 with
  | some statement => runInternal statement
  | none => pure ()

def refresh : M Unit := do
  if !(← get).session.hasChanged then return
  modify fun c => { c with session := { c.session with hasChanged := false } }
  let s := (← get).session
  (s.expander.allBindings s.world).forM importPlainly

def compile (text : String) : M Value := do
  let tree ← lift (Session.lift (Expansion.parse text))
  let tree ← lift (Session.expand tree)
  return .node .interactive [("body", ← tree.attr "body")]

/-- Whether an error in an input is shown as one of the input itself. -/
def isShown (e : Error) : Bool :=
  e.kind.isA .badSyntax || e.kind.isA .valueError || e.kind == .expansionError

/-- Runs one input. The answer is whether more of it is needed. -/
def runText (text : String) : M Bool := do
  if (← get).isIncomplete text then return true
  match ← Act.attempt (compile text) with
  | .ok tree =>
    emit (.run tree)
    refresh
  | .error e =>
    if isShown e then emit (.showError e)
    else if e.kind.isA .importError then emit (.write (e.kind.name ++ ": " ++ e.text ++ "\n"))
    else throw e
  return false

def dropEnd (n : Nat) (text : String) : String := String.ofList (text.toList.take (text.length - n))

/-- What an input stands for: a question becomes a call. -/
def meaning (text : String) : String :=
  if text.endsWith "??" then "mcpyrate.repl.utils.sourcecode(" ++ dropEnd 2 text ++ ")"
  else if text.endsWith "?" then "mcpyrate.repl.utils.doc(" ++ dropEnd 1 text ++ ")"
  else text

/-- Runs one input, which may be a command of the console. -/
def submit (text : String) : M Bool := do
  if text == "macros?" then
    let x := (← get).session.expander
    emit (.write (← lift (Session.lift x.describe)))
    return false
  else runText (meaning text)

def greeting : List String :=
  ["mcpyrate 3.0.0 -- Advanced macro expander for Python.\n",
   "- obj? to view obj's docstring, and obj?? to view its source code.\n",
   "- macros? to view macro bindings.\n",
   "- macro(f) to bind function f as a macro. Works also as a decorator.\n"]

/-- Reads lines to their end. A line is missing where the user interrupts. The lines read of the
current input are in `buffer`. -/
def readLines (buffer : List String) : List (Option String) → M Unit
  | [] => do
    emit (.prompt (if buffer.isEmpty then ">>> " else "... "))
    emit (.write "\n")
  | line :: rest => do
    emit (.prompt (if buffer.isEmpty then ">>> " else "... "))
    match line with
    | none =>
      emit (.write "\nKeyboardInterrupt\n")
      readLines [] rest
    | some line =>
      let buffer := buffer ++ [line]
      let more ← submit ("\n".intercalate buffer)
      readLines (if more then buffer else []) rest

/-- A whole session: a banner or the greetings, the lines, and a farewell. -/
def interact (banner farewell : Option String) (lines : List (Option String)) : M Unit := do
  match banner with
  | none =>
    greeting.forM fun g => emit (.write g)
    emit .greet
  | some b => if !b.isEmpty then emit (.write (b ++ "\n"))
  readLines [] lines
  match farewell with
  | none => emit (.write "now exiting MacroConsole...\n")
  | some f => if !f.isEmpty then emit (.write (f ++ "\n"))

end Line

end TreeMacros.Console
