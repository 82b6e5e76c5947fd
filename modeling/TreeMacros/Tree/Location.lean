import TreeMacros.Tree.Rebuild

/-!
# Source locations

Copying locations from one node to another, and filling in what is missing in a tree.
-/

namespace TreeMacros

/-- How locations are filled in: take what is missing from the reference; the same, but a node that
has a location becomes the reference for what is below it; or take everything from the
reference. -/
inductive LocationMode where
  | reference | update | overwrite
  deriving DecidableEq, Repr

namespace Value

def isLocated : Value → Bool
  | node k _ => k.located
  | _ => false

/-- A location attribute as it is copied: the end of the range even if it is empty. -/
def copiedAttr? (old : Value) (name : String) : Option Value :=
  match old.attr? name with
  | some none => if name == "end_lineno" || name == "end_col_offset" then some none else .none
  | v => v

def copyLocation (new old : Value) : Value :=
  if new.isLocated && old.isLocated then
    Kind.locationNames.foldl (fun new name =>
      match old.copiedAttr? name with
      | some v => new.setAttr name v
      | .none => new) new
  else new

section

variable {m : Type → Type} [Monad m] [MonadExceptOf Error m] [Editing m]

/-- One location attribute of a node: the node's attributes afterwards, and the reference for what
is below the node. -/
def placeAttr (mode : LocationMode) (as : Attrs) (name : String) (reference : Value) :
    m (Attrs × Value) :=
  match mode, Attrs.get? as name with
  | .overwrite, _ => do return (← Editing.assign as name reference, reference)
  | _, .none => do return (← Editing.assign as name reference, reference)
  | .update, some v => return (as, v)
  | .reference, some _ => return (as, reference)

def placeAttrs (mode : LocationMode) (k : Kind) (as : Attrs) (line column : Value) :
    m (Attrs × Value × Value) := do
  if k.located then
    let (as, line) ← placeAttr mode as "lineno" line
    let (as, column) ← placeAttr mode as "col_offset" column
    return (as, line, column)
  else return (as, line, column)

/-- The tree with its locations filled in from a line and a column. -/
def place (mode : LocationMode) : Value → Value → Value → m Value :=
  fold
    (fun k as (parts : Parts (Value → Value → m Value)) line column => do
      let (as, line, column) ← placeAttrs mode k as line column
      rebuild (fun _ (i : Item (Value → Value → m Value)) => i.result line column) k as parts)
    fun v items _ line column =>
      match v with
      | none => pure none
      | list _ => do return list (← items.mapM (·.result line column))
      | v => throw (.fault (.noAttribute v.typeName "_attributes"))

/-- Fills in locations from a reference node; one without a location changes nothing. -/
def fixLocations (mode : LocationMode) (reference v : Value) : m Value :=
  match reference.attr? "lineno", reference.attr? "col_offset" with
  | some line, some column => v.place mode line column
  | _, _ => pure v

end

end Value

/-- A place in a source file, with the source text of the code there if it is known. -/
def formatLocation (filename : String) (tree : Value) (source : Option String) : String :=
  let line := ((tree.attr? "lineno").getD .none).display
  let shown := match source with
    | some s =>
      if s.isEmpty then "" else (if s.toList.contains '\n' then "\n" else " ") ++ s
    | none => ""
  filename ++ ":" ++ line ++ ":" ++ shown

end TreeMacros
