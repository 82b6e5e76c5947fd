import TreeMacros.Dialect.Scan
import TreeMacros.Dialect.Script
import TreeMacros.Expansion.Expander
import TreeMacros.Import.Macros
import TreeMacros.Text.Encoding

/-!
# Expanding dialects

The dialect imports of a module are taken up one after the other, first in its text and then in its
tree, until none are left, and the transformers of their dialects are applied.
-/

namespace TreeMacros

namespace Dialect

/-- An expansion of dialects under way. -/
structure Progress where
  world : World
  filename : String
  /-- Whether each step is shown. -/
  watching : Bool
  steps : Nat
  /-- The dialect imports of the text that have been taken up. -/
  seen : List String

abbrev M := Act Progress

def lift {α : Type} (act : Expansion α) : M α := fun p =>
  let (r, w) := act p.world
  (r, { p with world := w })

def start (world : World) (filename : String) (watching : Bool) : Progress :=
  ⟨world, filename, watching, 0, []⟩

/-- How a module is shown: as its text, or as the text of its tree. -/
def display (phase : Phase) (v : Value) : String :=
  match phase with
  | .source => v.display
  | .tree => v.sourceOrExplain false

def rule : String := String.ofList (List.replicate 79 '-') ++ "\n"

def header : String := "**StepExpansion: "

def plural (n : Nat) : String := if n == 1 then "" else "s"

def tell (message : Progress → String) : M Unit := do
  let p ← get
  if p.watching then lift (Expansion.print (header ++ message p))

/-- The first dialect import of a text that has not been taken up, which now is. -/
def nextInText (v : Value) : M (Option Value) := do
  match v with
  | .str text =>
    let p ← get
    match (importsIn text).find? fun s => !p.seen.contains s with
    | none => return none
    | some statement =>
      set { p with seen := p.seen ++ [statement] }
      let module ← lift (Expansion.parse statement)
      return some (← (← module.attr "body").firstElement)
  | v => throw (.fault (.wrongCall s!"expected string or bytes-like object, got '{v.typeName}'"))

def splitAtImport : List Value → Except Error (List Value × List Value)
  | [] => .ok ([], [])
  | v :: vs => do
    if ← v.isMarkedImport dialectsMark then return ([], v :: vs)
    else
      let (before, rest) ← splitAtImport vs
      return (v :: before, rest)

/-- The next dialect import: the content without it, the name of the module, and the dialects. -/
def next (phase : Phase) (v : Value) : M (Option (Value × String × Bindings)) := do
  match phase with
  | .source =>
    match ← nextInText v with
    | none => return none
    | some statement =>
      let (name, bound) ← lift (Import.bindingsOf statement (← get).filename false false)
      return some (v, name, bound)
  | .tree =>
    let body ← v.attr "body"
    match ← splitAtImport (← body.elements) with
    | (_, []) => return none
    | (before, statement :: rest) =>
      let (name, bound) ← lift (Import.bindingsOf statement (← get).filename false false)
      Import.requireList body
      let statements := before ++ Import.plainImport name statement :: rest
      return some (v.setAttr "body" (.list statements), name, bound)

/-- Applies what a dialect does in a phase; nothing if it does nothing. -/
def applyMethod (phase : Phase) (d : Dialect) (fullName : String) (v : Value) : M (Option Value) :=
  match d.method phase with
  | .inherited => return none
  | .missing =>
    throw (.report (.dialectMethod fullName phase.method)
      (some (.fault (.noAttribute d.name phase.method))))
  | .watch => do
    let p ← get
    set { p with watching := true }
    tell fun p => s!"{p.filename} enabled DialectExpander debug mode while taking step " ++
      s!"{p.steps + 1}.\n"
    return some v
  | .transform f => do
    lift (Expansion.note (.transformed d.name phase.logged))
    match f v with
    | .ok .notImplemented => return none
    | .ok r => return some r
    | .error e => throw (.report (.dialectFailure fullName phase.method) (some e))

def applyDialect (phase : Phase) (moduleName : String) (v : Value) (name : String) (b : Binding) :
    M Value := do
  let fullName := moduleName ++ "." ++ name
  match b with
  | .dialect d =>
    match d.failure with
    | some e => throw (.report (.dialectInit fullName) (some e))
    | none =>
      match ← applyMethod phase d fullName v with
      | none => return v
      | some r =>
        if !r.isTruthy then throw (.report (.dialectEmpty fullName phase.method) none)
        modify fun p => { p with steps := p.steps + 1 }
        tell fun p => s!"{p.filename} after {fullName}.{phase.method} (step {p.steps}):\n\n" ++
          display phase r ++ "\n" ++ rule
        return r
  | b => throw (.report (.notADialect (← get).filename fullName b.repr) none)

/-- Takes up dialect imports until there are no more, at most `fuel` of them. -/
def loop (phase : Phase) : Nat → Value → M Value
  | 0, _ => throw (.fault .tooDeep)
  | fuel + 1, v => do
    match ← next phase v with
    | none => return v
    | some (v, moduleName, bound) =>
      if moduleName.isEmpty then return v
      let v ← bound.foldlM (fun v (name, b) => applyDialect phase moduleName v name b) v
      loop phase fuel v

def limit : Nat := 10000

/-- How many dialect imports are taken up at most, for a module as it stands at the start. -/
def room (phase : Phase) (v : Value) : Nat :=
  match phase, v with
  | .source, .str text => limit + (importsIn text).length
  | _, v =>
    match (v.attr? "body").bind Value.elements? with
    | some statements => limit + statements.length
    | none => limit

/-- Shows the module before and after a phase, if the steps are shown. -/
def announced (phase : Phase) (v : Value) (act : M Value) : M Value := do
  tell fun p => s!"{p.filename} before dialect {phase.label} transformers ({p.steps} " ++
    s!"step{plural p.steps} total):\n\n" ++ display phase v ++ "\n" ++ rule
  let v ← act
  tell fun p => s!"All dialect {phase.label} transformers completed for {p.filename} ({p.steps} " ++
    s!"step{plural p.steps} total).\n" ++ rule
  return v

def transform (phase : Phase) (v : Value) : M Value :=
  announced phase v (loop phase (room phase v) v)

def expand (bytes : List UInt8) : M Value := do
  let text ← Text.decodeSource bytes
  let _ ← transform .source (.str text)
  match ← Act.attempt (lift (Expansion.parse text)) with
  | .error e => throw (.report (.unparsableResult (← get).filename) (some e))
  | .ok tree => transform .tree tree

end Dialect

/-- Expands the dialects of a source file and gives its tree. -/
def expandDialects (bytes : List UInt8) (filename : String) : Expansion Value := fun w =>
  let (r, p) := Dialect.expand bytes (Dialect.start w filename false)
  (r, p.world)

def expandModule (bytes : List UInt8) (filename : String) : Expansion Value := do
  let tree ← expandDialects bytes filename
  let (tree, bindings) ← findMacros tree filename false
  let expansion ← expandMacros tree bindings filename
  if (← expansion.markers .marker).isEmpty then return expansion
  else throw (.report .markersRemain none)

end TreeMacros
