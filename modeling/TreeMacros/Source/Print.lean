import TreeMacros.Source.Statement
import TreeMacros.Tree.Dump

/-!
# From trees to source text

A tree that has no source form is shown as a dump, and what is not even a tree by its type and
written form; both are errors. The lenient form turns every error into its text.
-/

namespace TreeMacros

namespace Source

def print (debug : Bool) : Value → Printer :=
  Value.fold (fun k as parts => Subject.print ⟨k, .node k as, parts, debug⟩) fun v items _ manner indent =>
    match v, manner with
    | .list _, .plain => each items (PrintItem.print · .plain indent)
    | v, m => printLeaf v m indent

end Source

namespace Value

def sourceText (debug : Bool) (v : Value) : Except Error String := do
  return Text.strip (← Source.print debug v .plain 0)

def source (debug : Bool) (v : Value) : Except Error String :=
  match v.sourceText debug with
  | .ok text => .ok text
  | .error err =>
    if err.kind == .printingError then
      match v.dump ⟨false, true⟩ with
      | .ok d => .error (.report (.printedAsDump d) (some err))
      | .error _ => .error (.report (.printedAsValue v.className v.repr) (some err))
    else .error err

def sourceOrExplain (debug : Bool) (v : Value) : String :=
  match v.source debug with
  | .ok text => text
  | .error err =>
    if err.kind == .printingError then err.text
    else "Internal error in unparser: " ++ err.kind.className ++ ": " ++ err.text

end Value

end TreeMacros
