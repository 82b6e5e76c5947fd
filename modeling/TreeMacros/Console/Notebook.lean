import TreeMacros.Console.Session

/-!
# The notebook extension

An extension of a notebook has every cell pass through its expander: it keeps the source text of a
cell, transforms its tree, and refreshes the imports of macros after the cell has been run. It stays
hooked in when it is unloaded, until it is taken down.
-/

namespace TreeMacros.Console

/-- What the extension knows of the source text of the current cell. -/
inductive CellSource where
  | placeholder
  | lines (ls : List String)
  deriving DecidableEq, Repr

def sessionName : String := "<ipython-session>"

structure Extension where
  expander : Expander
  hasChanged : Bool
  source : CellSource

namespace Extension

def start : Extension := ⟨⟨[], sessionName⟩, false, .placeholder⟩

end Extension

/-- A name in the session. -/
inductive Named where
  /-- The expander of an extension. -/
  | expander (extension : Nat)
  | bound (b : Binding)

structure Notebook where
  world : World
  /-- All extensions there have been. -/
  extensions : List Extension
  /-- The one that is loaded. -/
  loaded : Option Nat
  textHooks : List Nat
  treeHooks : List Nat
  runHooks : List Nat
  names : List (String × Named)
  /-- How often the commands of the extension have been registered. -/
  commands : Nat
  banner : Option String
  /-- The cells that extensions have run, oldest first. They are not kept in the history and have
  no output. -/
  cells : List String
  printed : String

namespace Notebook

abbrev M := Act Notebook

def start (world : World) : Notebook := ⟨world, [], none, [], [], [], [], 0, none, [], ""⟩

def expanderName : String := "__macro_expander__"

def defineMacro : String := "
    def macro(function):
        '''[mcpyrate] `macro(f)`: bind function `f` as a macro. Works also as a decorator. REPL only.'''
        if not callable(function):
            raise TypeError(f'`function` must be callable, got \x7btype(function)\x7d with value \x7brepr(function)\x7d')
        if function.__name__ == '<lambda>':
            raise TypeError('`function` must be a named function, got a lambda.')
        __macro_expander__.bindings[function.__name__] = function
        return function
    "

def bannerText : String := "mcpyrate 3.0.0 -- Advanced macro expander for Python."

def setName (names : List (String × Named)) (name : String) (n : Named) : List (String × Named) :=
  match names with
  | [] => [(name, n)]
  | (m, old) :: rest => if m == name then (m, n) :: rest else (m, old) :: setName rest name n

def runCell (text : String) : M Unit := modify fun n => { n with cells := n.cells ++ [text] }

def print (text : String) : M Unit := modify fun n => { n with printed := n.printed ++ text }

def load : M Unit := do
  modify fun n => { n with banner := some bannerText }
  let n ← get
  if n.loaded.isSome then return
  let id := n.extensions.length
  set { n with
    extensions := n.extensions ++ [Extension.start]
    loaded := some id
    textHooks := n.textHooks ++ [id]
    treeHooks := n.treeHooks ++ [id]
    names := setName n.names expanderName (.expander id)
    runHooks := n.runHooks ++ [id]
    commands := n.commands + 1 }
  runCell defineMacro

/-- Forgets the extension; it stays hooked in. -/
def unload : M Unit := modify fun n => { n with loaded := none }

/-- The extension that is loaded, when something is asked of it. -/
def current (asked : String) : M Nat := do
  match (← get).loaded with
  | some id => return id
  | none => throw (.fault (.noAttribute "NoneType" asked))

def extension (n : Notebook) (id : Nat) : Extension := (n.extensions[id]?).getD Extension.start

def setExtension (n : Notebook) (id : Nat) (e : Extension) : Notebook :=
  { n with extensions := n.extensions.set id e }

def inSession {α : Type} (id : Nat) (act : Session.M α) : M α := fun n =>
  let e := n.extension id
  let (r, s) := act ⟨n.world, e.expander, e.hasChanged⟩
  (r, { n.setExtension id { e with expander := s.expander, hasChanged := s.hasChanged } with
    world := s.world })

def setSource (id : Nat) (source : CellSource) : M Unit :=
  modify fun n => n.setExtension id { n.extension id with source }

/-- Has an extension transform a tree. Every error becomes a rejection of the cell. -/
def transform (id : Nat) (tree : Value) : M Value := do
  match ← Act.attempt (inSession id (Session.expand tree)) with
  | .ok tree =>
    setSource id .placeholder
    return tree
  | .error e => throw (.report (.rejected e.text) none)

def readCell (text : String) : M Unit := do
  (← get).textHooks.forM fun id => setSource id (.lines (Text.lines text))

/-- The tree of a cell after it has passed through the extensions. -/
def expandCell (text : String) : M Value := do
  let tree ← fun n =>
    let (r, w) := Expansion.parse text n.world
    (r, { n with world := w })
  (← get).treeHooks.foldlM (fun tree id => transform id tree) tree

/-- Runs the plain imports of macros after a cell, if there are new ones. -/
def refresh (id : Nat) : M Unit := do
  let e := (← get).extension id
  if !e.hasChanged then return
  modify fun n => n.setExtension id { n.extension id with hasChanged := false }
  (e.expander.allBindings (← get).world).forM fun (name, b) => do
    match ← b.importStatement? name with
    | some statement => runCell ("%%ignore_importerror\n" ++ statement)
    | none => pure ()

def afterCell : M Unit := do (← get).runHooks.forM refresh

def stripEnd (s : String) : String := String.ofList (s.toList.reverse.dropWhile Text.isBlank).reverse

def showMacros : M Unit := do
  let id ← current "macro_transformer"
  let x := ((← get).extension id).expander
  let text ← inSession id (Session.lift x.describe)
  print (stripEnd text ++ "\n")

def modes : List String := ["exec", "eval", "single"]

/-- Shows the tree of a text, with its macros expanded or as it is. -/
def showTree (text mode : String) (expand : Bool) : M Unit := do
  if !modes.contains mode then
    throw (.fault (.outside .valueError "compile() mode must be 'exec', 'eval' or 'single'"))
  let tree ← fun n =>
    let (r, w) := Expansion.parse text n.world
    (r, { n with world := w })
  let tree ← if expand then transform (← current "macro_transformer") tree else pure tree
  print ((← tree.dump ⟨false, true⟩) ++ "\n")

def bind (name : String) (b : Binding) : M Unit := do
  let n ← get
  match n.names.lookup expanderName with
  | none => throw (.fault (.noKey (Text.quoted expanderName)))
  | some (.bound b) => throw (.fault (.noAttribute b.typeName "bindings"))
  | some (.expander id) =>
    let e := n.extension id
    set (n.setExtension id
      { e with expander := { e.expander with bindings := Bindings.insert e.expander.bindings name b } })

/-- Reads an import of one name under another: the module, the name, the other name. -/
def readImport (text : String) : Except Error (Option (String × String × String)) :=
  let spaced := text.map fun c => if Text.isBlank c then ' ' else c
  match (spaced.splitOn " ").filter (!·.isEmpty) with
  | [] => .ok none
  | ["from", module, "import", name, "as", other] =>
    if name.toList.contains '.' then .error (.fault (.badSource .badSyntax))
    else .ok (some (module, name, other))
  | _ => .error (.fault (.badSource .badSyntax))

/-- What a name in a module stands for: what the module defines, or a part of the package. -/
def importName (module name : String) : Expansion Binding := do
  let members ← Import.load module
  match Bindings.get? members name with
  | some b => return b
  | none =>
    let full := module ++ "." ++ name
    if Import.isPackage (← get) module then
      match ← Act.attempt (Import.load full) with
      | .ok _ => return .part full
      | .error e => if e.kind != .moduleNotFound then throw e
    throw (.fault (.importFailure s!"cannot import name '{name}' from '{module}'"))

/-- Imports a name into the session; if that fails, nothing happens. -/
def importQuietly (text : String) : M Unit := do
  match ← readImport text with
  | none => return
  | some (module, name, other) =>
    let n ← get
    let (r, w) := importName module name n.world
    set { n with world := w }
    match r with
    | .ok b => modify fun n => { n with names := setName n.names other (.bound b) }
    | .error e => if !e.kind.isA .importError then throw e

def takeDown : M Unit := do
  let id ← current "__del__"
  let n ← get
  if !n.runHooks.contains id then
    throw (.fault (.outside .valueError "the function is not registered"))
  modify fun n => { n with runHooks := n.runHooks.erase id }
  if (n.names.lookup expanderName).isNone then throw (.fault (.noKey (Text.quoted expanderName)))
  modify fun n => { n with
    names := n.names.filter (·.1 != expanderName)
    treeHooks := n.treeHooks.erase id
    textHooks := n.textHooks.erase id }

end Notebook

end TreeMacros.Console
