import TreeMacros.Tree.Value

/-!
# Dialects

A dialect transforms a whole module: its text before it is parsed, its tree afterwards, or both.
-/

namespace TreeMacros

/-- The two phases in which a module is transformed. -/
inductive Phase where
  | source | tree
  deriving DecidableEq, Repr

namespace Phase

def label : Phase → String
  | source => "source"
  | tree => "AST"

def method : Phase → String
  | source => "transform_source"
  | tree => "transform_ast"

def logged : Phase → String
  | source => "source"
  | tree => "ast"

end Phase

/-- What a dialect does in one phase. -/
inductive DialectMethod where
  /-- Nothing. -/
  | inherited
  /-- The transformer cannot be found. -/
  | missing
  | transform (f : Value → Except Error Value)
  /-- Gives its input back, and has the steps of the transformation shown from then on. -/
  | watch

structure Dialect where
  name : String
  home : String
  /-- What goes wrong when the dialect is taken up. -/
  failure : Option Error
  source : DialectMethod
  tree : DialectMethod

namespace Dialect

def method (d : Dialect) : Phase → DialectMethod
  | .source => d.source
  | .tree => d.tree

/-- The dialect that shows the steps of the transformation. -/
def stepExpansion : Dialect := ⟨"StepExpansion", "mcpyrate.dialects", none, .watch, .inherited⟩

end Dialect

end TreeMacros
