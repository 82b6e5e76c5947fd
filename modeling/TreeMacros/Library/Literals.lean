import TreeMacros.Macro.Basic
import TreeMacros.Tree.Location

/-!
# Custom literals

In a block under `customliterals`, each literal is wrapped in a call that bears the name of its
type, so that the name can be given another meaning there.
-/

namespace TreeMacros.Library

def wrap (name : String) (v : Value) : Value :=
  let func := Value.node .name [("id", .str name), ("ctx", .node .load [])]
  (Value.node .call [("func", func), ("args", .list [v]), ("keywords", .list [])]).copyLocation v

/-- The name for the type of a constant. Other constants give way to nothing. -/
def constantName? : Value → Option String
  | .tuple _ => some "tuple"
  | .str _ => some "str"
  | .list _ => some "list"
  | .set _ => some "set"
  | .dict _ => some "dict"
  | .int _ | .float _ | .complex _ => some "num"
  | _ => none

def wrapLiterals {m : Type → Type} [Monad m] [MonadExceptOf Error m] [Editing m] : Value → m Value :=
  Value.fold
    (fun k as (parts : Parts (m Value)) =>
      let v := Value.node k as
      match k with
      | .constant =>
        match v.attr "value" with
        | .ok c => pure (((constantName? c).map (wrap · v)).getD .none)
        | .error e => throw e
      | .tuple => pure (wrap "tuple" v)
      | .list => pure (wrap "list" v)
      | .set => pure (wrap "set" v)
      | .dict => pure (wrap "dict" v)
      | .str => pure (wrap "str" v)
      | .num => pure (wrap "num" v)
      | _ => Value.rebuild (fun _ (i : Item (m Value)) => i.result) k as parts)
    fun v _ _ => throw v.noFields

def wrapStatements (done : List Value) : List Value → Program
  | [] => .give (.list done)
  | v :: vs =>
    .need (.visit .current none v) fun v =>
      .need (.edit (wrapLiterals v)) fun v => wrapStatements (done ++ [v]) vs

def customLiterals (call : Call) : Except Error Program := do
  return wrapStatements [] (← call.tree.elements)

end TreeMacros.Library
