import TreeMacros.Expansion.Collector
import TreeMacros.Expansion.Failure
import TreeMacros.Quotation.Lift
import TreeMacros.Tree.Context
import TreeMacros.Tree.Marker

/-!
# Expanding macros

A visit goes through a tree and replaces each invocation by what the macro gives for it. Missing
locations and contexts of the outcome are filled in, and in recursive mode the outcome is visited
in turn.

`Expander.walk` is one pass, with a way to deal with invocations as a parameter; `Expander.expand`
deals with one invocation; `Expander.visit` ties the two together.
-/

namespace TreeMacros

/-- A visit to a tree by an expander. -/
abbrev Visit := Expander → Value → Expansion Value

namespace Expander

/-- A detected invocation. -/
structure Invocation where
  name : Value
  source : String
  call : Call

/-! ## Answers to macros -/

def markDone (v : Value) : Expansion Value := Act.label (.node .done [("body", v)])

/-- Visits a tree. A suite is changed where it stands, unless nothing is left of it. -/
def visitTree (visit : Visit) (x : Expander) (suite : Option ListLabel) (v : Value) :
    Expansion Value := do
  let v ← visit x (← Act.label v)
  match suite, v with
  | some l, .list xs => Act.note (.refilled l xs)
  | _, _ => pure ()
  return v

def visitTo (visit : Visit) (x : Expander) (extent : Extent) (suite : Option ListLabel)
    (v : Value) : Expansion Value :=
  match extent with
  | .current => visitTree visit x suite v
  | .recursive => Expansion.inMode true (visitTree visit x suite v)
  | .once => Expansion.inMode false do markDone (← visitTree visit x suite v)

def quotationOperators : List Identity := ["q", "u", "n", "a", "s", "h"].map .builtIn

def isQuotationOperator : Binding → Bool
  | .transformer m => quotationOperators.contains m.identity
  | _ => false

/-- Expands the quotation operators in a tree with an expander that has no other bindings of its
own. -/
def unquote (visit : Visit) (x : Expander) (suite : Option ListLabel) (v : Value) :
    Expansion Value := do
  let bindings := (x.allBindings (← get)).filter fun b => isQuotationOperator b.2
  Expansion.inMode true (visitTree visit ⟨bindings, x.filename⟩ suite v)

/-- The global name for what a name is bound to, if it is bound. -/
def capture? (x : Expander) (body : Value) : Expansion (Option String) := do
  let name ← body.attr "id"
  match ← x.bound? name with
  | none => return none
  | some b =>
    if !b.isTruthy then return none
    return some (← Expansion.captureGlobally b name)

def describe (x : Expander) : Expansion String := do
  let w ← get
  let head := s!"Macro bindings for {x.filename}:\n"
  if x.isIdle w then return head ++ "    <no bindings>\n"
  let lines ← ((x.allBindings w).mergeSort fun a b => a.1 ≤ b.1).mapM fun (name, b) => do
    return s!"    {name}: {← b.fullName}\n"
  return head ++ String.join lines

def noteOf (label : String) (recursive : Bool) (call : Call) : CallNote where
  label := label
  form := call.form
  tree := call.tree.sourceOrExplain false
  args := call.args.elements?.map fun args => args.map (·.sourceOrExplain false)
  invocation := call.invocation.sourceOrExplain false
  recursive := recursive
  target := call.target.map fun
    | .none => none
    | v => some (v.sourceOrExplain false)

def answer (visit : Visit) (x : Expander) (m : Macro) : (r : Request) → Expansion r.Reply
  | .visit extent suite v => visitTo visit x extent suite v
  | .unquote suite v => unquote visit x suite v
  | .latest v => Act.latest v
  | .edit act => Act.onJournal act
  | .lift v => Quotation.lift (capture? x) v
  | .collect v => x.collect v
  | .fresh base => Expansion.fresh base
  | .quoteLevel => do return (← get).quoteLevels.current
  | .stepLevel => do return (← get).stepLevels.current
  | .count => Expansion.count m.identity
  | .bindings => x.describe
  | .print text => Expansion.print text
  | .note call => do Expansion.note (.called (noteOf m.label (← get).recursive call))

def inScope {α : Type} (s : Scope) (act : Expansion α) : Expansion α :=
  match s with
  | .quote delta => Expansion.atQuoteLevel delta act
  | .step delta => Expansion.atStepLevel delta act

def run (visit : Visit) (x : Expander) (m : Macro) : Program → Expansion Value
  | .give v => pure v
  | .fail e => throw e
  | .ask r next => do
    let a ← Act.attempt (answer visit x m r)
    run visit x m (next a)
  | .within s body next => do
    let a ← Act.attempt (inScope s (run visit x m body))
    run visit x m (next a)

/-! ## One invocation -/

/-- What a macro has answered: something, or something yet to be worked out. -/
inductive Answered where
  | ready (v : Value)
  | pending (m : Macro) (p : Program)

def apply (visit : Visit) (x : Expander) (b : Binding) (call : Call) : Expansion Answered :=
  match b with
  | .transformer m =>
    match m.transformer with
    | .eager f => do return .ready (← run visit x m (f call))
    | .lazy start => do return .pending m (← start call)
  | b => throw (.fault (.wrongCall s!"'{b.typeName}' object is not callable"))

def takeOutput (visit : Visit) (x : Expander) (location : String) (a : Answered) :
    Expansion Value := do
  match a with
  | .ready v => checkOutput location v
  | .pending m p =>
    match ← Act.attempt (run visit x m p) with
    | .error _ => throw (unfinishedOutput location)
    | .ok v => checkOutput location v

/-- Fills in what is missing in an output and, in recursive mode, visits it. -/
def settle (visit : Visit) (x : Expander) (invocation v : Value) : Expansion Value := do
  if v.isNone then return .none
  let located ← Value.fixLocations .reference invocation v
  let fixed ← Act.label (← located.fixContexts)
  if (← get).recursive then visit x fixed else return fixed

def expand (visit : Visit) (x : Expander) (i : Invocation) : Expansion Value := do
  let call := i.call
  let location := formatLocation x.filename call.invocation (some i.source)
  match ← x.bound? i.name with
  | none => throw (.fault (.noKey i.name.repr))
  | some b =>
    match ← Act.attempt (apply visit x b call) with
    | .error e => throw (e.atUse (useSite location call.form i.name.display))
    | .ok a =>
      settle visit x call.invocation (← takeOutput visit x location a)

/-! ## One pass -/

/-- Code that has the place of an invocation, for tools that trace which lines are run. -/
def coverage (node : Value) (name : Value) : Except Error Value := do
  let line ← node.attr "lineno"
  let text := s!"source line {line.display} invoked macro {name.display}"
  let v := (Value.node .constant [("value", .str text)]).copyLocation node
  let t := (Value.node .name [("id", .str "_mcpyrate_coverage"),
    ("ctx", .node .store [])]).copyLocation node
  let assign := (Value.node .assign [("targets", .list [t]), ("value", v)]).copyLocation node
  return .node .done [("body", assign)]

/-- Puts the trace of an invocation in front of its outcome. -/
def traced (v node name : Value) : Expansion Value := do
  if !node.hasAttr "lineno" && !node.hasAttr "col_offset" then return v
  let rest := match v with
    | .none => []
    | .list xs => xs
    | v => [v]
  return .list ((← Act.label (← coverage node name)) :: rest)

/-- Removes the first or the last item that invokes a macro, and gives it together with the rest. -/
def popFirst : List (Value × Bool) → Option (Value × List Value)
  | [] => none
  | (v, true) :: rest => some (v, rest.map (·.1))
  | (v, false) :: rest => (popFirst rest).map fun (w, vs) => (w, v :: vs)

def popLast (items : List (Value × Bool)) : Option (Value × List Value) :=
  (popFirst items.reverse).map fun (v, vs) => (v, vs.reverse)

/-- Items can only be taken out of lists and sets. -/
def requireRemovable : Value → Except Error Unit
  | .list _ | .set _ => .ok ()
  | v => .error (.fault (.noAttribute v.typeName "remove"))

/-- The name and arguments of a candidate that is known to be one. -/
def candidate (v : Value) : Except Error (Value × Value) := do
  return (← v.candidate?).getD (.none, .none)

section

variable (x : Expander) (expand : Invocation → Expansion Value)

def visitChildren (k : Kind) (as : Attrs) (parts : Parts (Expansion Value)) : Expansion Value :=
  Value.rebuild (fun _ (i : Item (Expansion Value)) => i.result) k as parts

def visitSubscript (v : Value) (children : Expansion Value) : Expansion Value := do
  match ← (← v.attr "value").candidate? with
  | none => children
  | some (name, args) =>
    if ← x.isCall name args .expr then
      let tree ← (← v.attr "slice").attr "value"
      expand ⟨name, v.sourceOrExplain false, ⟨.expr, tree, none, args, none, v⟩⟩
    else children

/-- A block. What invokes the macro is taken out of the header, but is still to be seen in the
invocation that the macro is given. -/
def visitWith (v : Value) (children : Expansion Value) : Expansion Value := do
  let items ← v.attr "items"
  match popFirst (← x.detect .block items) with
  | none => children
  | some (item, rest) =>
    let (name, args) ← candidate (← item.attr "context_expr")
    requireRemovable items
    let inner ← v.refill "items" rest
    let target ← item.attr "optional_vars"
    let (tree, suite) ←
      if rest.isEmpty then do pure (← v.attr "body", v.listLabel? "body")
      else pure (.list [inner], none)
    let r ← expand ⟨name, v.sourceOrExplain false,
      ⟨.block, tree, suite, args, some target, v.shallowCopy "items"⟩⟩
    traced r inner name

/-- A function or class with decorators. What invokes the macro is no longer among them, but is
still to be seen in the invocation that the macro is given. -/
def visitDecorated (v : Value) (children : Expansion Value) : Expansion Value := do
  let decorators ← v.attr "decorator_list"
  match popLast (← x.detect .decorator decorators) with
  | none => children
  | some (item, rest) =>
    let (name, args) ← candidate item
    requireRemovable decorators
    let tree ← v.refill "decorator_list" rest
    let r ← expand ⟨name, v.sourceOrExplain false,
      ⟨.decorator, tree, none, args, none, v.shallowCopy "decorator_list"⟩⟩
    traced r item name

/-- A name. A macro that gives the name itself back leaves it for good. -/
def visitName (visit : Visit) (v : Value) : Expansion Value := do
  let name ← v.attr "id"
  if ← x.isCall name .none .name then
    let r ← Expansion.inMode false
      (expand ⟨name, v.sourceOrExplain false, ⟨.name, v, none, .none, none, v⟩⟩)
    if r.isNone then return .none
    let unchanged ← if r.isKind .name then pure ((← r.attr "id").same name) else pure false
    if unchanged then markDone r
    else if (← get).recursive then visit x r
    else return r
  else return v

def visitNode (visit : Visit) (k : Kind) (as : Attrs) (parts : Parts (Expansion Value)) :
    Expansion Value := do
  let v := Value.node k as
  if x.isIdle (← get) || k == .done then return v
  let children := visitChildren k as parts
  match k with
  | .subscript => visitSubscript x expand v children
  | .withStmt => visitWith x expand v children
  | .functionDef | .classDef => visitDecorated x expand v children
  | .name => visitName x expand visit v
  | .constant => do
    let _ ← v.attr "value"
    children
  | _ => children

/-- A visit to what is no node. A suite that has become empty gives way to nothing. -/
def visitRest (v : Value) (items : List (Item (Expansion Value))) : Expansion Value := do
  if x.isIdle (← get) then return v
  match v with
  | .none => return .none
  | .list _ => return Value.suite (← items.mapM (·.result))
  | v => throw v.noFields

def walk (visit : Visit) (v : Value) : Expansion Value :=
  v.fold (visitNode x expand visit) fun v items _ => visitRest x v items

end

/-- Visits a tree, where expansions go at most `depth` levels deep. -/
def visitAt : Nat → Visit
  | 0 => fun _ _ => throw (.fault .tooDeep)
  | depth + 1 => fun x v => x.walk (x.expand (visitAt depth)) (visitAt depth) v

def limit : Nat := 1000

def visit (x : Expander) (v : Value) : Expansion Value := visitAt limit x v

/-- Expands once, until no macros are left, or as far as the visit under way. -/
def visitFor (x : Expander) (extent : Extent) (v : Value) : Expansion Value :=
  visitTo (visitAt limit) x extent none v

end Expander

def removeMarks {m : Type → Type} [Monad m] [MonadExceptOf Error m] [Editing m] (v : Value) :
    m Value :=
  v.deleteMarkers .expanderMarker

def expandMacros (v : Value) (bindings : Bindings) (filename : String) : Expansion Value := do
  let x : Expander := ⟨bindings, filename⟩
  return (← removeMarks (← x.visitFor .recursive v)).unlabelled

end TreeMacros
