import TreeMacros.Macro.Basic
import TreeMacros.Tree.Rename

/-!
# Scripted macros

A macro can be given by a script: what it does with the tree it is called with, in a few plain
steps. Scripted macros note down their calls.
-/

namespace TreeMacros

/-- A part of a call that a template refers to. -/
inductive Hole where
  | tree | args | target | invocation
  deriving DecidableEq, Repr

namespace Hole

def value (h : Hole) (call : Call) : Value :=
  match h with
  | tree => call.tree
  | args => call.args
  | target => call.target.getD .none
  | invocation => call.invocation

/-- What stands in the place of a hole: a copy of the part. -/
def fill (h : Hole) (call : Call) : Except Error Value := (h.value call).deepCopy

end Hole

/-- A tree with holes. Inside of a list, a hole can stand for several elements. -/
inductive Template where
  | value (v : Value)
  | hole (h : Hole)
  | splice (h : Hole)
  | list (ts : List Template)
  | tuple (ts : List Template)
  | node (k : Kind) (fields : List (String × Template))
  deriving Inhabited

namespace Template

mutual

def fill (call : Call) : Template → Except Error Value
  | value v => .ok v
  | hole h => h.fill call
  | splice h => h.fill call
  | list ts => do return .list (← fillItems call ts)
  | tuple ts => do return .tuple (← fillItems call ts)
  | node k fields => do return .node k (← fillFields call fields)

def fillItems (call : Call) : List Template → Except Error (List Value)
  | [] => .ok []
  | splice h :: ts => do return (← (← h.fill call).elements) ++ (← fillItems call ts)
  | t :: ts => do return (← fill call t) :: (← fillItems call ts)

def fillFields (call : Call) : List (String × Template) → Except Error (List (String × Value))
  | [] => .ok []
  | (name, t) :: rest => do return (name, ← fill call t) :: (← fillFields call rest)

end

end Template

inductive Script where
  | identity
  | delete
  | const (v : Value)
  | template (t : Template)
  | raise (e : Error)
  /-- Visits the tree and goes on with the outcome. -/
  | visit (extent : Extent) (next : Script)
  | setField (name : String) (v : Value)
  | rename (old new : Value)
  | fresh (base : Value)
  /-- Visits the tree at another quote level. -/
  | quoteLevel (delta : Value)
  /-- Does one after the other, call by call; the last one from then on. -/
  | steps (scripts : List Script)
  deriving Inhabited

namespace Script

def withLatest (call : Call) (next : Call → Program) : Program :=
  .need (.latest call.invocation) fun invocation => next { call with invocation }

mutual

def run (call : Call) : Script → Program
  | identity => .give call.tree
  | delete => .give .none
  | const v => .give v
  | template t => withLatest call fun call => .ofExcept (t.fill call) .give
  | raise e => .fail e
  | visit extent next =>
    .need (.visit extent call.suite call.tree) fun tree => run { call with tree } next
  | setField name v =>
    if call.tree.isNode then .need (.edit (call.tree.assign name v)) .give
    else .fail (.fault (.noAttribute call.tree.typeName name))
  | rename old new => .need (.edit (Value.rename old new call.tree)) .give
  | fresh base => .need (.fresh base) fun name => .give (.node .name [("id", .str name)])
  | quoteLevel delta =>
    .inScope (.quote delta) (.need (.visit .current call.suite call.tree) .give)
  | steps scripts => .need .count fun n => runNth call scripts n

def runNth (call : Call) : List Script → Nat → Program
  | [], _ => .fail (.fault (.noIndex "list"))
  | [s], _ => run call s
  | s :: _, 0 => run call s
  | _ :: rest, n + 1 => runNth call rest n

end

end Script

/-- The definition of a scripted macro. -/
structure ScriptedMacro where
  label : String
  name : String
  home : Option String
  isName : Bool
  isParametric : Bool
  script : Script

namespace ScriptedMacro

def make (d : ScriptedMacro) (n : Nat) : Macro :=
  ⟨.made n, d.label, d.name, d.home, d.isName, d.isParametric,
    .eager fun call => .need (.note call) fun _ => d.script.run call⟩

end ScriptedMacro

/-- Where a macro comes from: it is one of those that come with the library, or scripted. -/
inductive MacroSource where
  | builtIn (group name : String)
  | scripted (d : ScriptedMacro)

end TreeMacros
