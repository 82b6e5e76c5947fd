import TreeMacros.Level
import TreeMacros.Macro.Basic
import TreeMacros.Quotation.Lower
import TreeMacros.Tree.Marker

/-!
# Quotation operators

`q` turns code into code that builds it. Inside of a quote, `u` puts a value in, `n` a name, `a` a
tree, `s` a list of trees, and `h` a value that is captured where the quote stands. Quotes nest:
`q` goes up by one level, and the others, except `s`, go down by one.

`expand1` and `expand` expand macros in quoted code, `expand1q` and `expandq` quote first.
-/

namespace TreeMacros.Quotation

/-- Refuses forms of invocation that an operator does not take. -/
def requireForm (operator : String) (forms : List Form) (names : String) (call : Call)
    (next : Program) : Program :=
  if forms.contains call.form then next else .fail (.report (.wrongForm operator names) none)

def quotableForms (operator : String) (call : Call) (next : Program) : Program :=
  requireForm operator [.expr, .block] "expr and block" call next

/-- An unquote stands inside of a quote. -/
def unquoteForm (operator : String) (call : Call) (next : Program) : Program :=
  requireForm operator [.expr] "expr" call <|
    .need .quoteLevel fun level =>
      if (level.toInt?.getD 0) < 1 then .fail (.report (.outsideQuote operator) none) else next

/-- The target of a block, which has to be a single name. -/
def assignTo (call : Call) (code : Value) : Except Error Value :=
  let target := call.target.getD .none
  if target.isKind .name then .ok (.node .assign [("targets", .list [target]), ("value", code)])
  else do .error (.report (.singleTarget (← target.source false)) none)

/-- Quoted code, from a tree in which the operators have been expanded. -/
def finishQuote (call : Call) (code : Value) : Program :=
  .ofExcept (code.markers .quoteMarker) fun
    | [] => if call.form == .block then .ofExcept (assignTo call code) .give else .give code
    | _ => .fail (.fault .assertion)

def q (call : Call) : Program :=
  quotableForms "q" call <|
    .inScope (.quote (.int 1)) <|
      .need (.unquote call.suite call.tree) fun v =>
        .need (.lift v) fun code => finishQuote call code

/-- Expands what is unquoted: everything once outside of all quotes, else the operators. What
counts is what becomes of the tree itself. -/
def expandUnquoted (tree : Value) (next : Value → Program) : Program :=
  .need .quoteLevel fun level =>
    let visit := if level.same (.int 0) then Request.visit .recursive none tree else .unquote none tree
    .need visit fun _ => .need (.latest tree) next

def u (call : Call) : Program :=
  unquoteForm "u" call <|
    .inScope (.quote (.int (-1))) <|
      expandUnquoted call.tree fun tree =>
        .give (literalOf (callOf (libraryRef "astify") [tree] []))

def n (call : Call) : Program :=
  unquoteForm "n" call <|
    .inScope (.quote (.int (-1))) <|
      .ofExcept (liftPlain (.node .name [("id", literalOf call.tree)])) fun code =>
        .give (literalOf code)

def a (call : Call) : Program :=
  unquoteForm "a" call <|
    .inScope (.quote (.int (-1))) <|
      .give (literalOf call.tree)

def s (call : Call) : Program :=
  unquoteForm "s" call <|
    let list := Value.node .attributeRef [("value", libraryRef "ast"), ("attr", .str "List")]
    .give (literalOf (callOf list [] [keywordOf "elts" call.tree]))

def h (call : Call) : Program :=
  unquoteForm "h" call <|
    .inScope (.quote (.int (-1))) <|
      .ofExcept (call.tree.source false) fun name =>
        expandUnquoted call.tree fun tree =>
          .give (.node .captureLater [("body", tree), ("name", .str name)])

def marked (v : Value) : Value := (v.attr? "body").getD .none

/-- Expands quoted code as far as asked: the code is lowered, expanded and quoted again. -/
def expandQuoted (extent : Extent) (call : Call) : Program :=
  .need (.visit .once call.suite call.tree) fun v =>
    .ofExcept (lower (marked v)) fun tree =>
      .need (.visit extent none tree) fun v =>
        q { call with tree := if extent == .once then marked v else v, suite := none }

def expand1 (call : Call) : Program :=
  quotableForms "expand1" call (expandQuoted .once call)

def expand (call : Call) : Program :=
  quotableForms "expand" call (expandQuoted .recursive call)

def expand1q (call : Call) : Program :=
  quotableForms "expand1q" call <|
    (q call).andThen fun tree => expand1 { call with tree, suite := none }

def expandq (call : Call) : Program :=
  quotableForms "expandq" call <|
    (q call).andThen fun tree => expand { call with tree, suite := none }

def operators : List (String × (Call → Program)) :=
  [("q", q), ("u", u), ("n", n), ("a", a), ("s", s), ("h", h), ("expand1q", expand1q),
   ("expandq", expandq), ("expand1", expand1), ("expand", expand)]

def macros : List Macro :=
  operators.map fun (name, run) =>
    ⟨.builtIn name, name, name, some "mcpyrate.quotes", false, false, .eager run⟩

end TreeMacros.Quotation
