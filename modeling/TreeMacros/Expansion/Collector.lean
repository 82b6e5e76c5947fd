import TreeMacros.Expansion.Detection

/-!
# Collecting invocations

Which macros a tree invokes, without expanding anything. Each name and form is collected once, in
the order of the tree.
-/

namespace TreeMacros

/-- A collection under way. -/
structure Collection where
  world : World
  found : List Invoked
  deriving Inhabited

namespace Collection

abbrev M := Act Collection

def lift {α : Type} (act : Expansion α) : M α := fun c =>
  let (r, w) := act c.world
  (r, { c with world := w })

def add (name : Value) (form : Form) : M Unit :=
  modify fun c =>
    if c.found.any fun i => i.name.same name && i.form == form then c
    else { c with found := c.found ++ [⟨name, form⟩] }

/-- The ways in which a collector comes to a tree. -/
structure Scan where
  /-- Visits the tree. -/
  visit : M Unit
  /-- Visits what the tree has as its value, when it stands between brackets. -/
  visitValue : M Unit
  /-- Visits the arguments that the tree stands for: its elements if it is a tuple. -/
  visitArguments : M Unit
  /-- Visits the arguments that the value of the tree stands for. -/
  visitValueArguments : M Unit
  /-- Visits the arguments of the tree as a candidate. -/
  visitOwnArguments : M Unit
  /-- Visits the arguments of the candidate in the header of a block. -/
  visitHeaderArguments : M Unit

/-- A visit to a part of a node; it fails if the part is missing. -/
def partScan (parts : Parts Scan) (v : Value) (name : String) (f : Scan → M Unit) : M Unit := do
  let _ ← v.attr name
  match parts.lookup name with
  | some p => f p.result
  | none => pure ()

def visitChildren (k : Kind) (parts : Parts Scan) : M Unit :=
  (Value.childItems k parts).forM (·.result.visit)

/-- Visits a node with items that may be invocations: first the arguments of those that are, then
the others, then `rest`. -/
def visitItems (x : Expander) (form : Form) (k : Kind) (parts : Parts Scan) (v : Value)
    (field : String) (arguments : Scan → M Unit) (rest : M Unit) : M Unit := do
  let detected ← lift (x.detect form (← v.attr field))
  if detected.any (·.2) then
    let items := match parts.lookup field with
      | some p => p.items
      | none => []
    let marked := items.zip (detected.map (·.2))
    for (i, found) in marked do
      if found then
        match ← (← Expander.itemCandidate i.value form).candidate? with
        | some (name, _) =>
          add name form
          arguments i.result
        | none => pure ()
    for (i, found) in marked do
      if !found then i.result.visit
    rest
  else visitChildren k parts

def visitFieldsExcept (parts : Parts Scan) (v : Value) (names : List String) : M Unit :=
  (v.fields.filter fun f => !names.contains f.1).forM fun (name, _) =>
    match parts.lookup name with
    | some p => p.result.visit
    | none => pure ()

def visitNode (x : Expander) (k : Kind) (as : Attrs) (parts : Parts Scan) : M Unit := do
  let v := Value.node k as
  match k with
  | .subscript =>
    match ← (← v.attr "value").candidate? with
    | none => visitChildren k parts
    | some (name, args) =>
      if ← lift (x.isCall name args .expr) then
        add name .expr
        partScan parts v "value" (·.visitOwnArguments)
        partScan parts v "slice" (·.visitValue)
      else visitChildren k parts
  | .withStmt =>
    visitItems x .block k parts v "items" (·.visitHeaderArguments)
      (partScan parts v "body" (·.visit))
  | .functionDef | .classDef =>
    visitItems x .decorator k parts v "decorator_list" (·.visitOwnArguments)
      (visitFieldsExcept parts v ["decorator_list", "name"])
  | .name =>
    let name ← v.attr "id"
    if ← lift (x.isCall name .none .name) then add name .name
  | .constant =>
    let _ ← v.attr "value"
    visitChildren k parts
  | _ => visitChildren k parts

def scanNode (x : Expander) (k : Kind) (as : Attrs) (parts : Parts Scan) : Scan :=
  let v := Value.node k as
  let visit : M Unit := do
    if x.isIdle (← get).world || k == .done then pure () else visitNode x k as parts
  { visit
    visitValue := partScan parts v "value" (·.visit)
    visitArguments :=
      if k == .tuple then partScan parts v "elts" (·.visit) else visit
    visitValueArguments := partScan parts v "value" (·.visitArguments)
    visitOwnArguments :=
      if k == .subscript then partScan parts v "slice" (·.visitValueArguments) else pure ()
    visitHeaderArguments := partScan parts v "context_expr" (·.visitOwnArguments) }

def scanRest (x : Expander) (v : Value) (items : List (Item Scan)) : Scan :=
  let visit : M Unit := do
    if x.isIdle (← get).world then pure ()
    else
      match v with
      | .none => pure ()
      | .list _ => items.forM (·.result.visit)
      | v => throw v.noFields
  let missing (name : String) : M Unit := throw (.fault (.noAttribute v.typeName name))
  { visit
    visitValue := missing "value"
    visitArguments := visit
    visitValueArguments := missing "value"
    visitOwnArguments := pure ()
    visitHeaderArguments := missing "context_expr" }

def collect (x : Expander) (v : Value) : M Unit :=
  (v.fold (scanNode x) fun v items _ => scanRest x v items).visit

end Collection

def Expander.collect (x : Expander) (v : Value) : Expansion (List Invoked) := fun w =>
  let (r, c) := Collection.collect x v ⟨w, []⟩
  (r.map fun _ => c.found, c.world)

end TreeMacros
