import TreeMacros.Import.Statement
import TreeMacros.Tree.Location

/-!
# Splicing code into templates

A template is a list of statements in which a bare name, the tag, marks the places where other
statements go. When the body of a module is spliced into the template of a dialect, its docstring,
its list of public names and all marked imports, wherever they stand, go to the top.
-/

namespace TreeMacros

/-- Which of the lists that were passed in a result is. -/
inductive Origin where
  | body | template | new
  deriving DecidableEq, Repr

namespace Splice

/-- A single node counts as a list. -/
def asList (v : Value) : Value := if v.isNode then .list [v] else v

def isTag (tag : Value) (v : Value) : Except Error Bool := do
  if !v.isKind .exprStmt then return false
  let value ← v.attr "value"
  if !value.isKind .name then return false
  return (← value.attr "id").same tag

/-- An action that knows whether the body has been pasted already. -/
abbrev Pasting := StateT Bool (Except Error)

/-- The body for the first tag, and copies of it for further ones. -/
def nextBody (body : Value) : Pasting Value := do
  if ← get then StateT.lift body.deepCopy
  else
    set true
    return body

def paste (tag body : Value) : Value → Pasting Value :=
  Value.fold
    (fun k as (parts : Parts (Pasting Value)) => do
      if ← isTag tag (.node k as) then nextBody body
      else Value.rebuild (fun _ (i : Item (Pasting Value)) => i.result) k as parts)
    fun v items _ =>
      match v with
      | .list _ => do return Value.suite (← items.mapM (·.result))
      | v => throw v.noFields

/-- Splices statements into a template. A template that is a single node takes the place of the
body; where it marks a place inside of itself it would have to hold itself. -/
def statements (body template tag : Value) : Except Error (Value × Origin) := do
  let single := template.isNode
  let content := if single then Value.list [template] else asList body
  if !content.isTruthy then .error (.report .emptyBody none)
  else if !template.isTruthy then return (content, if body.isNode then .new else .body)
  else if single then
    if ← isTag tag template then return (content, .new)
    let (result, pasted) ← (paste tag content template).run false
    if pasted then .error (.fault .tooDeep) else return (result, .template)
  else
    let (result, _) ← (paste tag content template).run false
    return (result, if result.isNone then .new else .template)

/-! ## Whole modules -/

/-- What an extraction leaves of a tree, if anything, and what it has taken out. -/
abbrev Extraction := StateT (List Value) (Except Error)

def extract (test : Value → Except Error Bool) : Value → Extraction Value :=
  Value.fold
    (fun k as (parts : Parts (Extraction Value)) => do
      let v := Value.node k as
      if ← test v then
        modify (· ++ [v])
        return .none
      else Value.rebuild (fun _ (i : Item (Extraction Value)) => i.result) k as parts)
    fun v items _ =>
      match v with
      | .list _ => do return Value.suite (← items.mapM (·.result))
      | v => throw v.noFields

/-- A statement of a suite, and whether it still belongs to it. -/
structure Tracked where
  statement : Value
  present : Bool

namespace Tracked

def ofList (vs : List Value) : List Tracked := vs.map (⟨·, true⟩)

def statements (ts : List Tracked) : List Value := (ts.filter (·.present)).map (·.statement)

/-- Takes statements out of a suite with `take`, which gives nothing for those that are taken. A
suite that would become empty stays as it is. -/
def takeOut (take : Value → Extraction Value) (ts : List Tracked) :
    Except Error (List Tracked × List Value) := do
  let act : Extraction (List Tracked) := ts.mapM fun t => do
    if t.present then
      match ← take t.statement with
      | .none => return { t with present := false }
      | v => return { t with statement := v }
    else return t
  let (after, taken) ← act.run []
  if after.any (·.present) then return (after, taken)
  else return ((after.zip ts).map fun (a, t) => { a with present := t.present }, taken)

end Tracked

def assignsPublicNames (v : Value) : Except Error Bool := do
  if !v.isKind .assign then return false
  let targets ← v.attr "targets"
  if (← targets.length) != 1 then return false
  let target ← targets.firstElement
  if !target.isKind .name then return false
  return (← target.attr "id").same (.str "__all__")

/-- Takes a statement out if it assigns the list of public names; does not look inside of it. -/
def takePublicNames (v : Value) : Extraction Value := do
  if ← assignsPublicNames v then
    modify (· ++ [v])
    return .none
  else return v

def startsWithDocstring (first : Value) : Except Error Bool := do
  if !first.isKind .exprStmt then return false
  let value ← first.attr "value"
  return value.isKind .constant || value.isKind .str

/-- What becomes of the module body, the template, and their combination. -/
structure Combined where
  result : Value
  body : Value
  template : Value

def bodyAfter (passed : Value) (docstring : List Value) (ts : List Tracked) : Value :=
  if passed.isNode then ((docstring ++ ts.map (·.statement)).head?).getD passed
  else if docstring.isEmpty then .list (Tracked.statements ts)
  else .list (docstring ++ ts.map (·.statement))

/-- Splices the body of a module into the template of a dialect. -/
def dialect (passed template tag : Value) : Except Error Combined := do
  let content := if template.isNode then Value.list [template] else asList passed
  if !content.isTruthy then .error (.report .emptyBody none)
  else if !template.isTruthy then return ⟨content, passed, template⟩
  else
    let first ← content.firstElement
    let located ← (← template.elements).mapM (Value.fixLocations .overwrite first)
    let statements ← content.elements
    let (docstring, rest) :=
      if ← startsWithDocstring first then (statements.take 1, statements.drop 1)
      else ([], statements)
    let (body, publicNames) ← Tracked.takeOut takePublicNames (Tracked.ofList rest)
    let marked (mark : String) := Tracked.takeOut (extract (·.isMarkedImport mark))
    let (page, pageDialects) ← marked dialectsMark (Tracked.ofList located)
    let (page, pageMacros) ← marked macrosMark page
    let (body, bodyDialects) ← marked dialectsMark body
    let (body, bodyMacros) ← marked macrosMark body
    let (final, _) ← Splice.statements (.list (Tracked.statements body))
      (.list (Tracked.statements page)) tag
    let final ← final.elements
    return {
      result := .list (docstring ++ pageDialects ++ bodyDialects ++ publicNames ++ pageMacros ++
        bodyMacros ++ final)
      body := bodyAfter passed docstring body
      template := .list final }

end Splice

end TreeMacros
