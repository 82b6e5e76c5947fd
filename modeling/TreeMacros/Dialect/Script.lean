import TreeMacros.Dialect.Basic
import TreeMacros.Splice
import TreeMacros.Tree.Rename

/-!
# Scripted dialects

Dialects given by a few plain steps.
-/

namespace TreeMacros

/-- What a scripted dialect does with the text of a module. -/
inductive SourceScript where
  | replace (old new : String)
  | raise (e : Error)
  | const (v : Value)

namespace SourceScript

/-- Replaces all occurrences of a text; an empty one occurs everywhere. -/
def replaceAll (old new s : String) : String :=
  if old.isEmpty then new ++ String.join (s.toList.map fun c => c.toString ++ new)
  else new.intercalate (s.splitOn old)

def run (script : SourceScript) (v : Value) : Except Error Value :=
  match script with
  | replace old new =>
    match v with
    | .str s => .ok (.str (replaceAll old new s))
    | v => .error (.fault (.noAttribute v.typeName "replace"))
  | raise e => .error e
  | const c => .ok c

end SourceScript

/-- What a scripted dialect does with the tree of a module. -/
inductive TreeScript where
  | splice (template : Value)
  | append (statements : List Value)
  | rename (old new : Value)
  | raise (e : Error)
  | const (v : Value)

namespace TreeScript

def run (script : TreeScript) (v : Value) : Except Error Value :=
  match script with
  | splice template => do
    let combined ← Splice.dialect (← v.attr "body") template (.str "__paste_here__")
    return v.setAttr "body" combined.result
  | append statements => do
    return v.setAttr "body" (.list ((← (← v.attr "body").elements) ++ statements))
  | rename old new => Value.rename old new v
  | raise e => .error e
  | const c => .ok c

end TreeScript

end TreeMacros
