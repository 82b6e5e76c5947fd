import TreeMacros.Import.Macros
import TreeMacros.Text.Encoding

/-!
# How fresh a source file is

A source file is as new as the newest of itself and the files that it imports macros or dialects
from, and so on. What has been found out is remembered until it is invalidated, and the imports of
a file are kept beside it as long as the file itself does not change.
-/

namespace TreeMacros.Freshness

/-- A source file, and when it was changed. -/
structure Source where
  bytes : List UInt8
  time : Int

/-- The marked imports of a file, as of some time. -/
structure Imports where
  time : Int
  statements : List Value
  hasRelative : Bool

/-- A directory of source files. -/
structure Project where
  root : Path
  files : List (Path × Source)
  /-- Whether the imports of files are kept. -/
  keeps : Bool
  /-- The directories in which they can be. -/
  stores : List Path
  kept : List (Path × Imports)
  /-- What has been found out, by file name. -/
  known : List (String × Int)
  parse : String → Option Value

abbrev M := Act Project

namespace Project

def places (p : Project) : Places := ⟨p.root, p.root, [p.root.text]⟩

def file? (p : Project) (path : Path) : Option Source := p.files.lookup path

def isDirectory (p : Project) (path : Path) : Bool :=
  p.files.any fun (q, _) => path.parts.length < q.parts.length && path.parts.isPrefixOf q.parts

def write (p : Project) (path : Path) (source : Source) (store : Bool) : Project :=
  { p with
    files := (path, source) :: p.files.filter (·.1 != path)
    stores := if store && !p.stores.contains path.parent then path.parent :: p.stores else p.stores }

def touch (p : Project) (path : Path) (time : Int) : Option Project := do
  let source ← p.file? path
  return { p with files := (path, { source with time }) :: p.files.filter (·.1 != path) }

def invalidate (p : Project) : Project := { p with known := [] }

end Project

/-- Where a module was found: in a file, or as a directory without one. -/
inductive Found where
  | file (path : Path)
  | directory

/-- How the files of modules end, in the order in which they are looked for. Endings that name a platform
are left out. -/
def endings : List String := [".abi3.so", ".so", ".py", ".pyc"]

def find? (p : Project) (dir : Path) (name : String) : Option Found :=
  let among (parts : List String) (stem : String) : Option Found :=
    endings.findSome? fun e =>
      let path : Path := ⟨dir.parts ++ parts ++ [stem ++ e]⟩
      if (p.file? path).isSome then some (.file path) else none
  match among [name] "__init__" with
  | some found => some found
  | none =>
    match among [] name with
    | some found => some found
    | none => if p.isDirectory ⟨dir.parts ++ [name]⟩ then some .directory else none

/-- Whether the parts of what was found are in the directory of that name. -/
def Found.isPackage : Found → Bool
  | .file path => endings.any fun e => path.parts.getLast? == some ("__init__" ++ e)
  | .directory => true

def locate (p : Project) (name : String) (dir : Path) : List String → Except Error Path
  | [] => .error (.fault (.noModule name))
  | [last] =>
    match find? p dir last with
    | some (.file path) => .ok path
    | some .directory => .error (.fault (.noAttribute "NoneType" "endswith"))
    | none => .error (.fault (.noAttribute "NoneType" "origin"))
  | package :: rest =>
    match find? p dir package with
    | some found =>
      if found.isPackage then locate p name ⟨dir.parts ++ [package]⟩ rest
      else .error (.fault (.noModule name))
    | none => .error (.fault (.noModule name))

/-- The marked imports of a source text: first those of macros, then those of dialects. -/
def importsOf (p : Project) (source : Source) : Except Error Imports := do
  let text ← Text.decodeSource source.bytes
  match p.parse text with
  | none => .error (.fault (.badSource (Text.Layout.failure text)))
  | some tree =>
    let body ← (← tree.attr "body").elements
    let marked (mark : String) := body.filterM fun s => s.isMarkedImport mark
    let statements := (← marked macrosMark) ++ (← marked dialectsMark)
    let levels ← statements.mapM (Value.attr · "level")
    return ⟨source.time, statements, levels.any Value.isTruthy⟩

/-- The marked imports of a file: those that are kept, unless the file has changed since. -/
def imports (path : Path) (source : Source) : M Imports := do
  let p ← get
  match p.kept.lookup path with
  | some found =>
    if found.time == source.time then return found
    else renew p
  | none => renew p
where
  renew (p : Project) : M Imports := do
    let found ← importsOf p source
    if p.keeps && p.stores.contains path.parent then
      set { p with kept := (path, found) :: p.kept.filter (·.1 != path) }
    return found

/-- The files that a file imports macros or dialects from. -/
def dependency (name : String) (package : Option String) (statement : Value) : M Path := do
  let p ← get
  let module ← Import.moduleName statement name package
  locate p module p.root (module.splitOn ".")

def newestOf (times : List Int) (time : Int) : Int := times.foldl max time

/-- When a file was last changed or one that it depends on, at most `depth` files deep. -/
def newest : Nat → String → M Int
  | 0, _ => throw (.fault .tooDeep)
  | depth + 1, name => do
    if !name.endsWith ".py" then
      throw (.fault (.wrongCall "path_stats() missing 1 required positional argument: 'path'"))
    let p ← get
    match p.known.lookup name with
    | some time => return time
    | none =>
      let path ← p.places.resolve name
      match p.file? path with
      | none => throw (.fault (.missingFile name))
      | some source =>
        let found ← imports path source
        let package ←
          if found.hasRelative then pure (some (← Import.packageOf p.places name)) else pure none
        let times ← found.statements.mapM fun s => do
          newest depth (← dependency name package s).text
        let time := newestOf times source.time
        modify fun p => { p with known := (name, time) :: p.known.filter (·.1 != name) }
        return time

/-- When a file was last changed or one that it depends on. A file that depends on itself has no
such time. -/
def freshness (name : String) : M Int := do newest ((← get).files.length + 2) name

end TreeMacros.Freshness
