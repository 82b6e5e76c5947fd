import TreeMacros.Macro.Script

/-!
# Modules before they are executed

What executing a module defines, or how it fails.
-/

namespace TreeMacros

inductive Member where
  | transformer (s : MacroSource)
  | dialect (d : Dialect)
  | value (v : Value)

structure ModuleSource where
  members : List (String × Member)
  failure : Option Error
  isNamespace : Bool
  /-- Where the parts of a package are looked for. -/
  path : Option (List String)

end TreeMacros
