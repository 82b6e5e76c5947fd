import TreeMacros.Import.Macros

/-!
# Running a module as the main program

A module is executed under the name of the main program. A package is imported instead, and then
its part with that name.
-/

namespace TreeMacros.Launch

def mainName : String := "__main__"

/-- What the main program is afterwards. -/
inductive MainProgram where
  | unchanged | replaced | missing
  deriving DecidableEq, Repr

/-- The module that was run. -/
structure Program where
  package : String
  origin : String
  deriving DecidableEq, Repr

/-- A module where it was found. -/
structure Located where
  name : String
  source : ModuleSource
  origin : String
  isPackage : Bool

def originOf (w : World) (name : String) (source : ModuleSource) : String :=
  let base := "virt/" ++ "/".intercalate (name.splitOn ".")
  if source.isNamespace then "namespace"
  else if Import.isPackage w name then base ++ "/__init__.py"
  else base ++ ".py"

def locate (name : String) : Expansion Located := do
  let w ← get
  match w.modules.lookup name with
  | none => throw (.report (.mainMissing ("No module named " ++ name)) none)
  | some source => return ⟨name, source, originOf w name source, Import.isPackage w name⟩

def showsParts (w : World) (package : String) : Bool :=
  !(((w.modules.lookup package).bind ModuleSource.path).getD []).isEmpty && Import.isPackage w package

/-- Imports the package of a module, and tells whether it says where its parts are. -/
def importPackage (name : String) (asScript : Bool) : Expansion (Option String × Bool) := do
  match Import.parent? name with
  | none => return (none, false)
  | some (package, _) =>
    if asScript then throw (.report .scriptName none)
    else
      let _ ← Import.load package
      return (some package, showsParts (← get) package)

def runMainPart (name : String) : Expansion Unit := do
  match ← Act.attempt (Import.load (name ++ "." ++ mainName)) with
  | .ok _ => return ()
  | .error e =>
    if !e.kind.isA .importError then throw e
    match e with
    | .report (.scripted _ none) _ =>
      throw (.fault (.wrongCall "argument of type 'NoneType' is not iterable"))
    | e =>
      if (e.text.splitOn "No module named").length ≤ 1 then throw e
      else throw (.report (.mainPackage name) none)

/-- Whether a module is a package that is imported as a whole. -/
def Located.isWhole (m : Located) (asScript hasPath : Bool) : Bool :=
  !asScript && !hasPath && m.origin.endsWith "__init__.py"

/-- Finds a module. Also gives the package that it is run in, and whether it is imported as a
whole. -/
def prepare (name : String) (asScript : Bool) : Expansion (Located × String × Bool) := do
  let name ← Import.absoluteName name none
  let parent ← importPackage name asScript
  let found ← locate name
  let isWhole := found.isWhole asScript parent.2
  let package :=
    if asScript then "" else if parent.2 then parent.1.getD ""
    else if isWhole then name else if found.isPackage then mainName else ""
  return (found, package, isWhole)

/-- Runs a module as the main program, which becomes `launched`. If the module fails, what was
`remembered` is put back. -/
def runWith {μ : Type} (launched remembered : μ) (name : String) (asScript : Bool) :
    Act (World × μ) Program := fun (w, main) =>
  match prepare name asScript w with
  | (.error e, w) => (.error e, w, main)
  | (.ok (found, package, isWhole), w) =>
    let program : Program := ⟨package, found.origin⟩
    if isWhole then
      let act : Expansion Program := do
        let _ ← Import.load found.name
        runMainPart found.name
        return program
      let (r, w) := act w
      (r, w, main)
    else
      match Import.executeAs ⟨found.name, mainName, package⟩ found.source [] w with
      | (.error e, w) => (.error e, w, remembered)
      | (.ok _, w) => (.ok program, w, launched)

def runAsMain (name : String) (asScript : Bool) : Act (World × MainProgram) Program :=
  runWith .replaced .missing name asScript

end TreeMacros.Launch
