import TreeMacros.Tree.Rebuild

/-!
# Expression contexts

A name, attribute, subscript, list, tuple or starred expression is read, assigned to or deleted.
Trees that code has built often leave this open; it follows from where the expression stands.
-/

namespace TreeMacros

inductive Context where
  | load | store | del
  deriving DecidableEq, Repr

namespace Context

def kind : Context → Kind
  | load => .load
  | store => .store
  | del => .del

def node (c : Context) : Value := .node c.kind []

/-- The attributes of a node whose context the node fixes. -/
def ofChildren : Kind → List (String × Context)
  | .assign => [("targets", store), ("value", load)]
  | .annAssign => [("target", store), ("annotation", load), ("value", load)]
  | .namedExpr | .augAssign => [("target", store), ("value", load)]
  | .attributeRef => [("value", load)]
  | .subscript => [("value", load), ("slice", load)]
  | .comprehension => [("target", store), ("iter", load), ("ifs", load)]
  | .forStmt | .asyncFor => [("target", store), ("iter", load)]
  | .withItem => [("context_expr", load), ("optional_vars", store)]
  | .delete => [("targets", del)]
  | _ => []

end Context

namespace Value

/-- Whether a node should say how it is used and does not. -/
def lacksContext (k : Kind) (as : Attrs) : Bool :=
  k.hasField "ctx" &&
    match Attrs.get? as "ctx" with
    | some none => true
    | some _ => false
    | .none => true

section

variable {m : Type → Type} [Monad m] [MonadExceptOf Error m] [Editing m]

/-- The tree with its contexts filled in, where it stands in the given context. -/
def placeContexts : Value → Context → m Value :=
  fold
    (fun k as (parts : Parts (Context → m Value)) c => do
      let as ← if lacksContext k as then Editing.assign as "ctx" c.node else pure as
      let children := Context.ofChildren k
      match (node k as).requireAttrs (children.map (·.1)) with
      | .error e => throw e
      | .ok () =>
        rebuild (fun name (i : Item (Context → m Value)) =>
          i.result ((children.lookup name).getD c)) k as parts)
    fun v items _ c =>
      match v with
      | list _ => do return suite (← items.mapM (·.result c))
      | v => throw v.noFields

def fixContexts (v : Value) : m Value := v.placeContexts .load

end

end Value

end TreeMacros
