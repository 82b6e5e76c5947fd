import TreeMacros.Quotation.Operators
import TreeMacros.Text.Lines

/-!
# Watching expansion

`step_expansion` expands a tree step by step and shows it after each; `show_bindings` lists the
bindings.
-/

namespace TreeMacros.Debug

def shown (dump : Bool) (v : Value) : Except Error String :=
  if dump then v.dump ⟨true, true⟩ else .ok (v.sourceOrExplain true)

def stepMode (args : Value) : Except Error Bool := do
  if !args.isTruthy then return false
  match ← args.elements with
  | [arg] =>
    let mode ←
      if arg.isKind .constant then arg.attr "value"
      else if arg.isKind .str then arg.attr "s"
      else .error (.report (.stepMode arg.repr (arg.sourceOrExplain false)) none)
    match mode with
    | .str "unparse" => return false
    | .str "dump" => return true
    | v => .error (.report (.stepModeName v.repr) none)
  | _ => .error (.report .stepArguments none)

def showTree (dump : Bool) (columns : Nat) (headline : String) (v : Value) (next : Program) :
    Program :=
  let stars := String.ofList (List.replicate columns '*')
  .need (.print s!"{stars}Tree 0xADDR {headline}:\n") fun _ =>
    .ofExcept (shown dump v) fun text =>
      .need (.print (Text.indent columns text ++ "\n")) fun _ => next

/-- Goes on step by step while there are macros, at most `fuel` steps. -/
def stepLoop (dump : Bool) (columns : Nat) (suite : Option ListLabel) :
    Nat → Nat → Value → (Nat → Value → Program) → Program
  | 0, _, _, _ => .fail (.fault .tooDeep)
  | fuel + 1, step, v, done =>
    .need (.collect v) fun
      | [] => done step v
      | _ =>
        .need (.visit .once suite v) fun v =>
          let v := Quotation.marked v
          showTree dump columns s!"after step {step + 1}" v
            (stepLoop dump columns suite fuel (step + 1) v done)

def stepLimit : Nat := 10000

def stepExpansion (call : Call) : Program :=
  Quotation.quotableForms "step_expansion" call <|
    .ofExcept (stepMode call.args) fun dump =>
      .inScope (.step (.int 1)) <|
        .need .stepLevel fun level =>
          let columns := 2 * (level.toInt?.getD 0).toNat
          let stars := String.ofList (List.replicate columns '*')
          showTree dump columns "before macro expansion" call.tree <|
            stepLoop dump columns call.suite stepLimit 0 call.tree fun steps v =>
              let plural := if steps == 1 then "" else "s"
              .need (.print
                s!"{stars}Tree 0xADDR macro expansion complete after {steps} step{plural}.\n")
                fun _ => .give v

def noOperation : Value :=
  let arguments := Value.node .arguments
    [("posonlyargs", .list []), ("args", .list []), ("vararg", .none), ("kwonlyargs", .list []),
     ("kw_defaults", .list []), ("kwarg", .none), ("defaults", .list [])]
  let lambda := Value.node .lambda
    [("args", arguments), ("body", .node .constant [("value", .none)])]
  .node .call [("func", lambda), ("args", .list []), ("keywords", .list [])]

def showBindings (call : Call) : Program :=
  Quotation.requireForm "show_bindings" [.name] "identifier" call <|
    .need .bindings fun text =>
      .need (.print (text ++ "\n")) fun _ => .give noOperation

def macros : List Macro :=
  [⟨.builtIn "step_expansion", "step_expansion", "step_expansion", some "mcpyrate.debug", false,
    true, .eager stepExpansion⟩,
   ⟨.builtIn "show_bindings", "show_bindings", "show_bindings", some "mcpyrate.debug", true,
    false, .eager showBindings⟩]

end TreeMacros.Debug
