import TreeMacros.Tree.Fold
import TreeMacros.Tree.Journal

/-!
# Rebuilding trees

A visit gives for each node what takes its place: nothing, one node, or several. Here is
how a node is put together again from the visits to its children, and how a suite is. The node
and its lists are changed where they stand.
-/

namespace TreeMacros

namespace Value

/-- The node children of a node, in the order of the grammar. -/
def childItems {β : Type} (k : Kind) (parts : Parts β) : List (Item β) :=
  k.fieldNames.flatMap fun name =>
    match parts.lookup name with
    | some p =>
      match p.value with
      | .node .. => [⟨p.value, p.result⟩]
      | .list _ => p.items.filter (·.value.isNode)
      | _ => []
    | .none => []

/-- What a visit to an element of a list puts in its place. -/
def replacement (r : Value) : Except Error (List Value) :=
  match r with
  | none => .ok []
  | node k as => .ok [node k as]
  | v => v.elements

section

variable {β : Type} {m : Type → Type} [Monad m] [MonadExceptOf Error m] [Editing m]

/-- Visits the nodes in a list; other elements stay. -/
def rebuildList (visit : Item β → m Value) : List (Item β) → m (List Value)
  | [] => pure []
  | i :: is => do
    let here ←
      if i.value.isNode then do
        match replacement (← visit i) with
        | .ok vs => pure vs
        | .error e => throw e
      else pure [i.value]
    return here ++ (← rebuildList visit is)

/-- One attribute after the visit to it: a node that gives way to nothing leaves its attribute
unset. -/
def rebuildAttr (visit : Item β → m Value) (as : Attrs) (name : String) (p : Part β) : m Attrs :=
  match p.value with
  | .list _ => do Editing.refill as name (← rebuildList visit p.items)
  | .node .. => do
    match ← visit ⟨p.value, p.result⟩ with
    | .none => Editing.unset as name
    | v => Editing.assign as name v
  | _ => pure as

/-- Visits the children of a node, in the order of the grammar. -/
def rebuild (visit : String → Item β → m Value) (k : Kind) (as : Attrs) (parts : Parts β) :
    m Value := do
  let rec go (names : List String) (as : Attrs) : m Attrs :=
    match names with
    | [] => pure as
    | name :: names =>
      match parts.lookup name with
      | some p => do go names (← rebuildAttr (visit name) as name p)
      | .none => go names as
  return node k (← go k.fieldNames as)

end

/-- Flattens a suite by one level and drops what is empty. -/
def flatten (xs : List Value) : List Value :=
  xs.flatMap fun
    | list ys => ys
    | none => []
    | v => [v]

/-- A suite is never empty: nothing takes its place. -/
def suite (xs : List Value) : Value :=
  match flatten xs with
  | [] => none
  | ys => list ys

/-- What is no node has no fields to visit. -/
def noFields (v : Value) : Error := .fault (.noAttribute v.typeName "_fields")

end Value

end TreeMacros
