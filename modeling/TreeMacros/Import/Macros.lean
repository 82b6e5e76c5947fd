import TreeMacros.Import.Load

/-!
# Importing macros

What a marked import binds, and the imports of a module taken together.
-/

namespace TreeMacros

namespace Import

/-- The full name of a module from its name with leading dots, and the package that it is relative
to. -/
def absoluteName (name : String) (package : Option String) : Except Error String := do
  let dots := name.toList.takeWhile (· == '.')
  if dots.isEmpty then return name
  match package with
  | none => .error (.fault (.noPackage name))
  | some package =>
    if package.isEmpty then .error (.fault (.noPackage name))
    else
      let parts := Text.partsAt '.' package
      let up := dots.length - 1
      if parts.length ≤ up then
        .error (.fault (.importFailure "attempted relative import beyond top-level package"))
      else
        let base := ".".intercalate (parts.take (parts.length - up))
        let rest := String.ofList (name.toList.drop dots.length)
        return if rest.isEmpty then base else base ++ "." ++ rest

def dotsOf (level : Value) : Except Error String :=
  match level with
  | .int n => .ok (String.ofList (List.replicate n.toNat '.'))
  | .bool b => .ok (if b then "." else "")
  | v => .error (.fault (.notRepeatable v.typeName))

/-- The place of an import in its file, with its source text. -/
def locationOf (filename : String) (statement : Value) : String :=
  formatLocation filename statement (some (statement.sourceOrExplain false))

def packageOf (places : Places) (filename : String) : Except Error String :=
  match places.packageName filename with
  | .ok name => .ok name
  | .error e =>
    if e.kind.isA .valueError || e.kind.isA .importError then
      .error (.report (.packageName filename) (some e))
    else .error e

/-- The full name of the module that a statement imports from, in a file that belongs to
`package`. -/
def moduleName (statement : Value) (filename : String) (package : Option String) :
    Except Error String := do
  let module ← statement.attr "module"
  if module.isNone then
    .error (.report (.missingModuleName (locationOf filename statement)) none)
  else
    let dots ← dotsOf (← statement.attr "level")
    match module with
    | .str name => absoluteName (dots ++ name) package
    | v => .error (.fault (.notJoinable v.typeName))

def loadFor (statement : Value) (filename name : String) : Expansion Bindings := do
  match ← Act.attempt (load name) with
  | .ok bs => return bs
  | .error e =>
    if e.kind == .moduleNotFound then
      throw (.report (.missingModule (locationOf filename statement) name) (some e))
    else throw e

def bindName (statement : Value) (filename module : String) (allowLocal : Bool)
    (members bound : Bindings) (item : Value) : Except Error Bindings := do
  if !allowLocal && !(← item.attr "asname").isNone then .error (.report .asNaming none)
  else
    let as ← item.attr "asname"
    let name ← item.attr "name"
    let key := if as.isTruthy then as else name
    match name with
    | .str n =>
      match Bindings.get? members n with
      | some b => return Bindings.insert bound key.display b
      | none =>
        .error (.report (.missingName (locationOf filename statement) n module)
          (some (.fault (.noAttribute "module" n))))
    | v => .error (.fault (.wrongCall s!"attribute name must be string, not '{v.typeName}'"))

/-- The full name of the module that a marked import is from, and what it binds. -/
def bindingsOf (statement : Value) (filename : String) (again allowLocal : Bool) :
    Expansion (String × Bindings) := do
  let level ← statement.attr "level"
  let package ←
    if level.isTruthy && filename.endsWith ".py" then
      pure (some (← packageOf (← get).places filename))
    else pure none
  let name ← moduleName statement filename package
  let members ← loadFor statement filename name
  let members ← if again then reload name else pure members
  let items ← (← statement.attr "names").elements
  let bound : Except Error Bindings :=
    (items.drop 1).foldlM (bindName statement filename name allowLocal members) []
  return (name, ← bound)

/-- The import that takes the place of a marked one: it imports the module only. -/
def plainImport (name : String) (statement : Value) : Value :=
  (Value.node .importStmt
    [("names", .list [.node .importAlias [("name", .str name), ("asname", .none)]])]).copyLocation
    statement

/-- Only the statements of a list can be replaced. -/
def requireList (body : Value) : Except Error Unit :=
  match body with
  | .list _ => .ok ()
  | v => .error (.fault (.wrongCall s!"'{v.typeName}' object does not support item assignment"))

/-- Takes the imports of macros among the statements of a body one by one. -/
def takeImports (filename : String) (again : Bool) (body : Value) :
    List Value → Expansion (List Value × Bindings)
  | [] => return ([], [])
  | statement :: rest => do
    if ← statement.isMarkedImport macrosMark then
      let (name, bound) ← bindingsOf statement filename again true
      requireList body
      let (rest, more) ← takeImports filename again body rest
      return (plainImport name statement :: rest, Bindings.insertAll bound more)
    else
      let (rest, more) ← takeImports filename again body rest
      return (statement :: rest, more)

end Import

open Import in
/-- The macros that a module imports, and the module with plain imports in the place of these. -/
def findMacros (v : Value) (filename : String) (again : Bool) : Expansion (Value × Bindings) := do
  let body ← v.attr "body"
  let (statements, bound) ← takeImports filename again body (← body.elements)
  match body with
  | .list _ => return (v.setAttr "body" (.list statements), bound)
  | _ => return (v, bound)

end TreeMacros
