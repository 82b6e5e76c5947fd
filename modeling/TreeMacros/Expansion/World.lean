import TreeMacros.Import.Path
import TreeMacros.Import.Source
import TreeMacros.Level
import TreeMacros.Names
import TreeMacros.Text.Layout

/-!
# The state of expansion

What expanders share: fresh names, global bindings, levels, and what there is to tell afterwards.
Also here is whether the expander at work expands until no macros are left.
-/

namespace TreeMacros

/-- What is noted down about a call. -/
structure CallNote where
  label : String
  form : Form
  tree : String
  args : Option (List String)
  invocation : String
  recursive : Bool
  target : Option (Option String)
  deriving Repr, Inhabited

/-- A line of the log. -/
inductive LogEntry where
  | called (note : CallNote)
  /-- A whole module was transformed: by what, and its text or its tree. -/
  | transformed (dialect phase : String)
  deriving Repr, Inhabited

structure Warning where
  text : String
  filename : String
  line : Value
  deriving Repr, Inhabited

/-- The execution of a module, under a name and in a package. -/
structure Execution where
  module : String
  name : String
  package : String
  deriving DecidableEq, Repr, Inhabited

structure World where
  names : NameSupply
  /-- What has been changed in the trees that are being expanded. -/
  journal : Journal
  globals : Bindings
  quoteLevels : Levels
  stepLevels : Levels
  recursive : Bool
  counts : List (Identity × Nat)
  /-- How many macros have been made. -/
  made : Nat
  log : List LogEntry
  warnings : List Warning
  printed : List String
  /-- The modules that there are. -/
  modules : List (String × ModuleSource)
  /-- The modules that have been executed, and what they define. -/
  loaded : List (String × Bindings)
  /-- The executions of modules, oldest first. -/
  executed : List Execution
  places : Places
  /-- The tree of a source text, if it has one. -/
  parse : String → Option Value
  deriving Inhabited

namespace World

def start (names : NameSupply) : World where
  names := names
  journal := .empty
  globals := []
  quoteLevels := Levels.ofStart (.int 0)
  stepLevels := Levels.ofStart (.int 0)
  recursive := true
  counts := []
  made := 0
  log := []
  warnings := []
  printed := []
  modules := []
  loaded := []
  executed := []
  places := ⟨⟨[]⟩, ⟨[]⟩, []⟩
  parse := fun _ => none

def loads (w : World) : List (String × Nat) :=
  (w.executed.map Execution.module).eraseDups.map fun m =>
    (m, (w.executed.filter (·.module == m)).length)

end World

instance : HasJournal World := ⟨World.journal, fun w journal => { w with journal }⟩

/-- Actions of expanders. -/
abbrev Expansion := Act World

namespace Expansion

variable {α : Type}

def inMode (recursive : Bool) (act : Expansion α) : Expansion α :=
  Act.within (fun w => { w with recursive }) (fun w t => { t with recursive := w.recursive }) act

def atQuoteLevel (delta : Value) (act : Expansion α) : Expansion α := do
  let levels ← (← get).quoteLevels.changedBy delta
  Act.within (fun w => { w with quoteLevels := levels })
    (fun w t => { t with quoteLevels := w.quoteLevels }) act

def atStepLevel (delta : Value) (act : Expansion α) : Expansion α := do
  let levels ← (← get).stepLevels.changedBy delta
  Act.within (fun w => { w with stepLevels := levels })
    (fun w t => { t with stepLevels := w.stepLevels }) act

def print (text : String) : Expansion Unit :=
  modify fun w => { w with printed := w.printed ++ [text] }

def warn (warning : Warning) : Expansion Unit :=
  modify fun w => { w with warnings := w.warnings ++ [warning] }

def note (entry : LogEntry) : Expansion Unit :=
  modify fun w => { w with log := w.log ++ [entry] }

def fresh (base : Value) : Expansion String :=
  modifyGet fun w =>
    let (name, names) := w.names.fresh base
    (name, { w with names })

/-- The global name of something, which is made when it is first asked for. -/
def captureGlobally (b : Binding) (base : Value) : Expansion String := do
  match Bindings.nameOf? (← get).globals b with
  | some known => return known
  | none =>
    let unique ← fresh base
    modify fun w => { w with globals := Bindings.insert w.globals unique b }
    return unique

def make (d : ScriptedMacro) : Expansion Macro :=
  modifyGet fun w => (d.make w.made, { w with made := w.made + 1 })

def parse (text : String) : Expansion Value := do
  match (← get).parse text with
  | some v => return v
  | none => throw (.fault (.badSource (Text.Layout.failure text)))

def count (key : Identity) : Expansion Nat :=
  modifyGet fun w =>
    let n := (w.counts.lookup key).getD 0
    (n, { w with counts := (key, n + 1) :: w.counts.filter (·.1 != key) })

end Expansion

end TreeMacros
