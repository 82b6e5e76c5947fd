import TreeMacros.Source.Expression

/-!
# Printing statements

Each statement starts on a line of its own; suites are indented by one level. In debug form the
nodes that leave no trace in the source text are shown, too.
-/

namespace TreeMacros.Source

namespace Subject

def repeatDots (level : Value) : Printed :=
  match level with
  | .int n => .ok (String.ofList (List.replicate n.toNat '.'))
  | .bool b => .ok (if b then "." else "")
  | v => .error (.fault (.notRepeatable v.typeName))

def decorators (s : Subject) (indent : Nat) : Printed := do
  each (← (← s.part "decorator_list").elements) fun d => do
    return (← line s.debug (some d.value) indent "@") ++ (← d.print .plain indent)

def functionDefinition (s : Subject) (word : String) (indent : Nat) : Printed := do
  let decorators ← s.decorators indent
  let header ← s.ownLine indent ((← join (word ++ " ") (← s.part "name").value) ++ "(")
  let args ← s.child "args" indent
  let returns ← s.optional "returns" " -> " indent
  return "\n" ++ decorators ++ header ++ args ++ ")" ++ returns ++ (← s.suite "body" indent)

def classDefinition (s : Subject) (indent : Nat) : Printed := do
  let decorators ← s.decorators indent
  let header ← s.ownLine indent (← join "class " (← s.part "name").value)
  return "\n" ++ decorators ++ header ++ (← s.actuals "bases" indent) ++ (← s.suite "body" indent)

def forLoop (s : Subject) (word : String) (indent : Nat) : Printed := do
  return (← s.ownLine indent word) ++ (← s.child "target" indent) ++ " in " ++
    (← s.child "iter" indent) ++ (← s.suite "body" indent) ++
    (← s.optionalSuite "orelse" "else" indent)

def withHeader (s : Subject) (word : String) (indent : Nat) : Printed := do
  return (← s.ownLine indent word) ++ (← s.commaList "items" indent) ++ (← s.suite "body" indent)

/-- The conditional that is the only statement of the other branch, if that is so. -/
def soleBranch (p : PrintPart) : Except Error (Option PrintItem) := do
  if !p.isTruthy then return none
  if (← p.length) != 1 then return none
  match p.value, p.elements? with
  | .set _, _ | .frozenset _, _ =>
    .error (.fault (.wrongCall s!"'{p.value.typeName}' object is not subscriptable"))
  | .dict _, _ => .error (.fault (.noKey "0"))
  | _, some [item] => return if item.value.isKind .ifStmt then some item else none
  | _, _ => return none

/-- What follows the first branch of a conditional. A conditional that stands alone in the other
branch continues the chain. -/
def otherBranches (s : Subject) (indent : Nat) : Printed := do
  match ← soleBranch (← s.part "orelse") with
  | some item => item.print .branch indent
  | none => s.optionalSuite "orelse" "else" indent

def branch (s : Subject) (indent : Nat) : Printed := do
  return (← s.bareLine indent "elif ") ++ (← s.child "test" indent) ++ (← s.suite "body" indent) ++
    (← s.otherBranches indent)

def exceptHandler (s : Subject) (indent : Nat) : Printed := do
  let start ← s.ownLine indent "except"
  let type ← s.optional "type" " " indent
  let name := (← s.part "name").value
  let name ← if name.isTruthy then do pure (" as " ++ (← write name)) else pure ""
  return start ++ type ++ name ++ (← s.suite "body" indent)

def raiseStatement (s : Subject) (indent : Nat) : Printed := do
  let header ← s.ownLine indent "raise"
  if (← s.part "exc").isTruthy then
    return header ++ " " ++ (← s.child "exc" indent) ++ (← s.optional "cause" " from " indent)
  else if (← s.part "cause").isTruthy then .error (.fault .assertion)
  else return header

def annotatedAssignment (s : Subject) (indent : Nat) : Printed := do
  let start ← s.ownLine indent ""
  let simple := (← s.part "simple").isTruthy
  let target ← s.child "target" indent
  let target := if simple then target else "(" ++ target ++ ")"
  return start ++ target ++ ": " ++ (← s.child "annotation" indent) ++
    (← s.optional "value" " = " indent)

def tryStatement (s : Subject) (indent : Nat) : Printed := do
  return (← s.ownLine indent "try") ++ (← s.suite "body" indent) ++
    (← each (← (← s.part "handlers").elements) (·.print .plain indent)) ++
    (← s.optionalSuite "orelse" "else" indent) ++
    (← s.optionalSuite "finalbody" "finally" indent)

/-- Prints a statement or a module; `none` for other nodes. -/
def statement? (s : Subject) (indent : Nat) : Option Printed :=
  match s.kind with
  | .module => some do
    let start ← if s.debug then do pure ((← s.ownLine indent "$Module") ++ ":") else pure ""
    let inner := if s.debug then indent + 1 else indent
    return start ++ (← each (← (← s.part "body").elements) (·.print .plain inner))
  | .exprStmt => some do
    if s.debug then
      return (← s.ownLine indent "$Expr") ++ ": " ++ (← s.child "value" (indent + 1))
    else return (← s.bareLine indent "") ++ (← s.child "value" indent)
  | .importStmt => some do
    return (← s.ownLine indent "import ") ++ (← s.commaList "names" indent)
  | .importFrom => some do
    let start ← s.ownLine indent "from "
    let dots ← repeatDots (← s.part "level").value
    let module := (← s.part "module").value
    let module ← if module.isTruthy then write module else pure ""
    return start ++ dots ++ module ++ " import " ++ (← s.commaList "names" indent)
  | .assign => some do
    let start ← s.ownLine indent ""
    let targets ← each (← (← s.part "targets").elements) fun t => do
      return (← t.print .plain indent) ++ " = "
    return start ++ targets ++ (← s.child "value" indent)
  | .annAssign => some (s.annotatedAssignment indent)
  | .augAssign => some do
    let start ← s.ownLine indent ""
    let target ← s.child "target" indent
    let op ← sign binarySign (← s.part "op").value
    return start ++ target ++ " " ++ op ++ "= " ++ (← s.child "value" indent)
  | .returnStmt => some do
    return (← s.ownLine indent "return") ++ (← s.optional "value" " " indent)
  | .passStmt => some (s.ownLine indent "pass")
  | .breakStmt => some (s.ownLine indent "break")
  | .continueStmt => some (s.ownLine indent "continue")
  | .delete => some do return (← s.ownLine indent "del ") ++ (← s.commaList "targets" indent)
  | .assertStmt => some do
    return (← s.ownLine indent "assert ") ++ (← s.child "test" indent) ++
      (← s.optional "msg" ", " indent)
  | .globalStmt => some do
    return (← s.ownLine indent "global ") ++
      (← interleave ", " (← (← s.part "names").elements) (write ·.value))
  | .nonlocalStmt => some do
    return (← s.ownLine indent "nonlocal ") ++
      (← interleave ", " (← (← s.part "names").elements) (write ·.value))
  | .raiseStmt => some (s.raiseStatement indent)
  | .tryStmt => some (s.tryStatement indent)
  | .exceptHandler => some (s.exceptHandler indent)
  | .classDef => some (s.classDefinition indent)
  | .functionDef => some (s.functionDefinition "def" indent)
  | .asyncFunctionDef => some (s.functionDefinition "async def" indent)
  | .forStmt => some (s.forLoop "for " indent)
  | .asyncFor => some (s.forLoop "async for " indent)
  | .ifStmt => some do
    return (← s.ownLine indent "if ") ++ (← s.child "test" indent) ++ (← s.suite "body" indent) ++
      (← s.otherBranches indent)
  | .whileStmt => some do
    return (← s.ownLine indent "while ") ++ (← s.child "test" indent) ++
      (← s.suite "body" indent) ++ (← s.optionalSuite "orelse" "else" indent)
  | .withStmt => some (s.withHeader "with " indent)
  | .asyncWith => some (s.withHeader "async with " indent)
  | _ => none

/-- Markers are shown with what they hold; this is no source text. -/
def marker (s : Subject) (indent : Nat) : Printed := do
  let shown (p : PrintPart) (indent : Nat) : Printed :=
    if p.value.isNode then p.print .plain indent else .ok p.value.repr
  let start ← s.ownLine indent ("$ASTMarker<" ++ s.kind.typeName ++ ">")
  match s.kind.fieldNames with
  | ["body"] => return start ++ ": " ++ (← shown (← s.part "body") (indent + 1))
  | names =>
    let fields ← (names.filterMap fun n => (s.part? n).map (n, ·)).mapM fun (n, p) => do
      return (← s.bareLine (indent + 1) n) ++ ": " ++ (← shown p (indent + 2))
    return start ++ ": " ++ String.join fields

def plain (s : Subject) (indent : Nat) : Printed :=
  if s.kind.isMarker then s.marker indent
  else
    match s.expression? indent with
    | some p => p
    | none =>
      match s.statement? indent with
      | some p => p
      | none => .error (.report (.unprintable s.kind.typeName) none)

def print (s : Subject) : Printer
  | .plain, indent => s.plain indent
  | .field, indent => s.replacement indent
  | .pieces, indent => s.pieces indent
  | .branch, indent => s.branch indent
  | .rest, indent => do return (← write (← s.part "arg").value) ++ (← s.annotation indent)
  | .restKeywords, indent => do
    return (← join "**" (← s.part "arg").value) ++ (← s.annotation indent)

end Subject

end TreeMacros.Source
