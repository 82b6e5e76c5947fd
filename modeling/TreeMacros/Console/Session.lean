import TreeMacros.Expansion.Expander
import TreeMacros.Import.Macros

/-!
# Interactive sessions

A session has one expander. Macros that an input imports are bound from then on, and can also be
imported plainly afterwards, so that their documentation is at hand.
-/

namespace TreeMacros

structure Session where
  world : World
  expander : Expander
  /-- Whether macros have been imported since the last refresh. -/
  hasChanged : Bool

namespace Session

abbrev M := Act Session

def start (world : World) (filename : String) : Session := ⟨world, ⟨[], filename⟩, false⟩

def lift {α : Type} (act : Expansion α) : M α := fun s =>
  let (r, w) := act s.world
  (r, { s with world := w })

/-- Takes up the macro imports of an input, and expands its macros. -/
def expand (v : Value) : M Value := do
  let x := (← get).expander
  let (v, bound) ← lift (findMacros v x.filename true)
  if !bound.isEmpty then
    modify fun s => { s with
      hasChanged := true
      expander := { s.expander with bindings := Bindings.insertAll s.expander.bindings bound } }
  let x := (← get).expander
  lift do return (← removeMarks (← x.visitFor .current v)).unlabelled

def bind (s : Session) (name : String) (b : Binding) : Session :=
  { s with expander := { s.expander with bindings := Bindings.insert s.expander.bindings name b } }

end Session

namespace Binding

def home : Binding → Except Error (Option String)
  | transformer m => .ok m.home
  | dialect d => .ok (some d.home)
  | part _ => .error (.fault (.noAttribute "module" "__module__"))
  | plain v => .error (.fault (.noAttribute v.typeName "__module__"))

def definedName : Binding → String
  | transformer m => m.name
  | dialect d => d.name
  | part name => name
  | plain _ => ""

/-- The plain import of a macro under the name it is bound to. Macros that were defined in the
session have none. -/
def importStatement? (name : String) (b : Binding) : Except Error (Option String) := do
  match ← b.home with
  | none => return none
  | some h => return if h.isEmpty then none else some s!"from {h} import {b.definedName} as {name}"

end Binding

end TreeMacros
