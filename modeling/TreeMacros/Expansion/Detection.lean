import TreeMacros.Expansion.World

/-!
# Detecting invocations

A candidate is a name, or a name with arguments in brackets. It invokes a macro if the name is
bound to one that takes arguments, if there are any.
-/

namespace TreeMacros

/-- The name and the arguments of a candidate; nothing if the tree is none. -/
def Value.candidate? (v : Value) : Except Error (Option (Value × Value)) := do
  match v.kind? with
  | some .name => return some (← v.attr "id", .list [])
  | some .subscript =>
    let head ← v.attr "value"
    if head.isKind .name then
      let args ← (← v.attr "slice").attr "value"
      let args ← if args.isKind .tuple then args.attr "elts" else pure (.list [args])
      return some (← head.attr "id", args)
    else return .none
  | _ => return .none

/-- Bindings of its own, and the file that is being expanded. -/
structure Expander where
  bindings : Bindings
  filename : String
  deriving Inhabited

namespace Expander

def find? (x : Expander) (w : World) (name : String) : Option Binding :=
  match Bindings.get? x.bindings name with
  | some b => some b
  | none => Bindings.get? w.globals name

def isIdle (x : Expander) (w : World) : Bool := x.bindings.isEmpty && w.globals.isEmpty

/-- All bindings in sight; global ones stand first and give way to those of the expander. -/
def allBindings (x : Expander) (w : World) : Bindings :=
  Bindings.insertAll w.globals x.bindings

/-- What any value is bound to, if it is a bound name. -/
def bound? (x : Expander) (name : Value) : Expansion (Option Binding) := do
  if !name.isHashable then throw (.fault (.unhashable name.typeName))
  match name with
  | .str s => return x.find? (← get) s
  | _ => return none

/-- What a candidate's name is bound to, if that can be invoked. -/
def invocable? (x : Expander) (name : Value) : Expansion (Option Binding) := do
  if !name.isTruthy then return none
  match ← x.bound? name with
  | some b => return if b.isTruthy then some b else none
  | none => return none

def isCall (x : Expander) (name args : Value) (form : Form) : Expansion Bool := do
  match ← x.invocable? name with
  | none => return false
  | some b =>
    match form with
    | .name => return b.isName
    | _ => return !args.isTruthy || b.isParametric

/-- What is written in the place of a macro with the wrong kind of brackets. -/
def misuse (name : Value) (form : Form) (fullName : String) : String :=
  let place := if form == .block then "in `with` header" else "as decorator"
  s!"expr macro `{name.display}` invoked {place}; `{fullName}` maybe missing " ++
    "`@parametricmacro` declaration?"

def itemCandidate (item : Value) (form : Form) : Except Error Value :=
  if form == .block then item.attr "context_expr" else .ok item

/-- Whether an item of a block header or a decorator invokes a macro. Warns of a likely mistake. -/
def isMacroItem (x : Expander) (form : Form) (item : Value) : Expansion Bool := do
  match ← (← itemCandidate item form).candidate? with
  | none => return false
  | some (name, args) =>
    match ← x.invocable? name with
    | none => return false
    | some b =>
      if args.isTruthy && !b.isParametric then
        let text := misuse name form (← b.fullName)
        let line := (item.attr? "lineno").getD (.int 0)
        if line.toInt?.isNone then
          throw (.fault (.wrongCall s!"'{line.typeName}' object cannot be interpreted as an integer"))
        Expansion.warn ⟨text, x.filename, line⟩
      x.isCall name args form

def detect (x : Expander) (form : Form) (items : Value) : Expansion (List (Value × Bool)) := do
  (← items.elements).mapM fun item => do return (item, ← x.isMacroItem form item)

end Expander

end TreeMacros
