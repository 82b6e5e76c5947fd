import TreeMacros.Tree.Dictionary

/-!
# Imports with a meaning

An import whose first name is a magic one binds macros, or names dialects, at expansion time.
-/

namespace TreeMacros

def macrosMark : String := "macros"

def dialectsMark : String := "dialects"

namespace Value

/-- Whether a statement is an import whose first name is `mark`, without a local name. -/
def isMarkedImport (v : Value) (mark : String) : Except Error Bool := do
  if !v.isKind .importFrom then return false
  let first ← (← v.attr "names").firstElement
  if (← first.attr "name").same (.str mark) then return (← first.attr "asname").isNone
  else return false

end Value

end TreeMacros
