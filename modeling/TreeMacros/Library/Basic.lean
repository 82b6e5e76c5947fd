import TreeMacros.Library.Literals
import TreeMacros.Library.Singleton
import TreeMacros.Source.Print

/-!
# A small library of macros

Custom literals, logging of expressions, and singletons.
-/

namespace TreeMacros.Library

def log (call : Call) : Program :=
  .ofExcept (call.tree.source false) fun text =>
    let func := Value.node .name [("id", .str "print"), ("ctx", .node .load [])]
    let label := Value.node .constant [("value", .str (text ++ ": "))]
    .give (.node .call
      [("func", func), ("args", .list [label, call.tree]), ("keywords", .list [])])

def make (name : String) (t : Transformer) : Macro :=
  ⟨.builtIn ("demo." ++ name), name, name, some "demo_macros", false, false, t⟩

def macros : List Macro :=
  [make "customliterals" (.lazy customLiterals), make "log" (.eager log),
   make "value" (.eager value)]

end TreeMacros.Library
