import TreeMacros.Import.Statement
import TreeMacros.Macro.Basic
import TreeMacros.Tree.Location

/-!
# Singletons

A class under `value` becomes the only instance of itself. Its methods are written without the
parameter for the instance, and refer to what the class defines by bare names.
-/

namespace TreeMacros.Library

def definedNames (v : Value) : Except Error (List Value) := do
  let found ← (← (← v.attr "body").elements).mapM fun stmt => do
    match stmt.kind? with
    | some .assign =>
      let targets ← (← stmt.attr "targets").elements
      (targets.filter (·.isKind .name)).mapM fun t => do (← t.attr "id").asKey
    | some .functionDef => return [← (← stmt.attr "name").asKey]
    | _ => return []
  return found.flatten

def selfRef : Value := .node .name [("id", .str "self"), ("ctx", .node .load [])]

def memberOf (name v : Value) : Value :=
  (Value.node .attributeRef
    [("value", selfRef), ("attr", name), ("ctx", .node .load [])]).copyLocation v

/-- Whether a method has to be given the parameter for the instance. -/
def lacksSelf (method : Value) : Except Error Bool := do
  let params ← (← method.attr "args").attr "args"
  if !params.isTruthy then return true
  return !(← (← params.firstElement).attr "arg").same (.str "self")

section

variable {m : Type → Type} [Monad m] [MonadExceptOf Error m] [Editing m]

def selfParam : Value := .node .arg [("arg", .str "self"), ("annotation", .none)]

def addSelf (self method : Value) : m Value :=
  match method.attr "args" with
  | .error e => throw e
  | .ok arguments =>
    match arguments.attr "args" with
    | .error e => throw e
    | .ok (.list params) => do
      return method.setAttr "args" (← arguments.refill "args" (self :: params))
    | .ok v => throw (.fault (.noAttribute v.typeName "insert"))

def firstParam? (method : Value) : Option Value :=
  (((method.attr? "args").bind (·.attr? "args")).bind (·.elements?)).bind (·.head?)

/-- Goes through a method that has the parameter for the instance. -/
def withSelf (method : Value) (inside : m Value) : m Value :=
  match lacksSelf method with
  | .error e => throw e
  | .ok false => inside
  | .ok true => do
    let given ← addSelf selfParam method
    addSelf ((firstParam? given).getD selfParam) (← inside)

/-- The access to a name of the instance, or another name as it is. -/
def rebindName (names : List Value) (v : Value) : Except Error Value := do
  let name ← (← v.attr "id").asKey
  return if names.any (·.same name) then memberOf name v else v

/-- The ways to come to a tree: from the class around it, and from a method around it. -/
structure Rebinding (m : Type → Type) where
  inClass : m Value
  inMethod : m Value

/-- Has the methods in a tree refer to the names of the instance. -/
def rebind (names : List Value) (v : Value) : m Value :=
  (v.fold
    (fun k as (parts : Parts (Rebinding m)) =>
      let v := Value.node k as
      let readable (act : m Value) : m Value :=
        match k, v.attr "value" with
        | .constant, .error e => throw e
        | _, _ => act
      let inner := readable (Value.rebuild (fun _ (i : Item (Rebinding m)) => i.result.inMethod) k as parts)
      let outer := readable (Value.rebuild (fun _ (i : Item (Rebinding m)) => i.result.inClass) k as parts)
      let inMethod :=
        match k, rebindName names v with
        | .name, .ok w => pure w
        | .name, .error e => throw e
        | _, _ => inner
      Rebinding.mk (if k == .functionDef then withSelf v inner else outer) inMethod)
    fun v _ _ => ⟨throw v.noFields, throw v.noFields⟩).inClass

/-- The class, and the assignment that puts its instance in its place. -/
def singleton (v : Value) : m Value :=
  match definedNames v with
  | .error e => throw e
  | .ok names => do
    let baked ← rebind names v
    match baked.attr "name" with
    | .error e => throw e
    | .ok name =>
      let target := Value.node .name [("id", name), ("ctx", .node .store [])]
      let func := Value.node .name [("id", name), ("ctx", .node .load [])]
      let call := Value.node .call [("func", func), ("args", .list []), ("keywords", .list [])]
      return .list [baked, .node .assign [("targets", .list [target]), ("value", call)]]

end

def value (call : Call) : Program := .need (.edit (singleton call.tree)) .give

end TreeMacros.Library
