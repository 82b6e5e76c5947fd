import TreeMacros.Macro.Source

/-!
# Loading modules

A module is executed when it is first imported, after the packages it is in, and again whenever it
is reloaded. What it defines is made anew each time.
-/

namespace TreeMacros.Import

def builtInModules : List (String × Bindings) :=
  [("mcpyrate", []),
   ("mcpyrate.quotes", Quotation.macros.map fun m => (m.name, .transformer m)),
   ("mcpyrate.debug", (Debug.macros.map fun m => (m.name, Binding.transformer m)) ++
     [("StepExpansion", .dialect Dialect.stepExpansion)]),
   ("mcpyrate.dialects", [("StepExpansion", .dialect Dialect.stepExpansion)])]

def loaded? (w : World) (name : String) : Option Bindings :=
  match w.loaded.lookup name with
  | some bs => some bs
  | none => builtInModules.lookup name

def parent? (name : String) : Option (String × String) :=
  match (Text.partsAt '.' name).reverse with
  | last :: rest@(_ :: _) => some (".".intercalate rest.reverse, last)
  | _ => none

def isPackage (w : World) (name : String) : Bool :=
  w.modules.any (fun (n, m) => n.startsWith (name ++ ".") || (n == name && m.isNamespace)) ||
    builtInModules.any (·.1.startsWith (name ++ "."))

def setLoaded (name : String) (bs : Bindings) : Expansion Unit :=
  modify fun w => { w with loaded := (name, bs) :: w.loaded.filter (·.1 != name) }

def makeMember : Member → Expansion Binding
  | .transformer s => s.make
  | .dialect d => return .dialect d
  | .value v => return .plain v

def packageFor (w : World) (name : String) : String :=
  if isPackage w name then name else ((parent? name).map (·.1)).getD ""

/-- Executes a module on top of what it has defined before. -/
def executeAs (e : Execution) (source : ModuleSource) (old : Bindings) : Expansion Bindings := do
  if !source.isNamespace then
    modify fun w => { w with executed := w.executed ++ [e] }
  match source.failure with
  | some e => throw e
  | none =>
    let new ← source.members.mapM fun (n, m) => do return (n, ← makeMember m)
    return Bindings.insertAll old new

def execute (name : String) (source : ModuleSource) (old : Bindings) : Expansion Bindings := do
  executeAs ⟨name, name, packageFor (← get) name⟩ source old

/-- Finds and executes a module that is not loaded, but in a package that is. -/
def loadHere (name : String) : Expansion Bindings := do
  match (← get).modules.lookup name with
  | none => throw (.fault (.noModule name))
  | some source =>
    let bs ← execute name source []
    setLoaded name bs
    match parent? name with
    | some (package, last) =>
      match loaded? (← get) package with
      | some old => setLoaded package (Bindings.insert old last (.part name))
      | none => pure ()
    | none => pure ()
    return bs

/-- Imports a module, given as many steps as its name has parts. -/
def loadAt : Nat → String → Expansion Bindings
  | 0, name => throw (.fault (.noModule name))
  | depth + 1, name => do
    match loaded? (← get) name with
    | some bs => return bs
    | none =>
      match parent? name with
      | none => loadHere name
      | some (package, _) =>
        let _ ← loadAt depth package
        match loaded? (← get) name with
        | some bs => return bs
        | none =>
          if isPackage (← get) package then loadHere name
          else throw (.fault (.noModule name))

def load (name : String) : Expansion Bindings :=
  if name.isEmpty then throw (.fault (.outside .valueError "Empty module name"))
  else loadAt (Text.partsAt '.' name).length name

def reload (name : String) : Expansion Bindings := do
  match (← get).modules.lookup name, loaded? (← get) name with
  | some source, some old =>
    let bs ← execute name source old
    setLoaded name bs
    return bs
  | _, some old => return old
  | _, none => throw (.fault (.noModule name))

end TreeMacros.Import
