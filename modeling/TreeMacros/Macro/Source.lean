import TreeMacros.Debug.Stepping
import TreeMacros.Expansion.World
import TreeMacros.Library.Basic

/-!
# Making macros

The macros that come with the library by their names, and macros from scripts.
-/

namespace TreeMacros

namespace MacroSource

def builtIns (group : String) : List Macro :=
  match group with
  | "quotes" => Quotation.macros
  | "debug" => Debug.macros
  | "demo" => Library.macros
  | _ => []

/-- The macro itself. A scripted one is a new one each time. -/
def make : MacroSource → Expansion Binding
  | builtIn group name =>
    match (builtIns group).find? (·.name == name) with
    | some m => return .transformer m
    | none => throw (.fault (.noAttribute "module" name))
  | scripted d => do return .transformer (← Expansion.make d)

def makeAll (sources : List (String × MacroSource)) : Expansion Bindings :=
  sources.mapM fun (name, s) => do return (name, ← s.make)

end MacroSource

end TreeMacros
