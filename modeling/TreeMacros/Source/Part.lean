import TreeMacros.Tree.Fold

/-!
# Parts of a printed node

A node is printed from its parts: each attribute comes with its value and with the ways to print
it. A part is printed in one of several manners and at a level of indentation; printing it fails
when the tree has no source form.
-/

namespace TreeMacros.Source

/-- Source text, or the reason why there is none. -/
abbrev Printed := Except Error String

/-- The manners of printing a value: on its own, as a replacement field of a formatted string, as
the pieces of a formatted string, as a further branch of a conditional, or as the parameter that
collects what is left of the positional or keyword arguments. -/
inductive Manner where
  | plain | field | pieces | branch | rest | restKeywords
  deriving DecidableEq, Repr

abbrev Printer := Manner → Nat → Printed

/-- Values other than nodes and lists have no source form. -/
def printLeaf (v : Value) : Printer
  | .plain, _ => .error (.report (.unprintable v.typeName) none)
  | .field, _ => .error (.fault (.noAttribute v.typeName "value"))
  | .pieces, _ =>
    match v with
    | .dict _ => .error (.fault (.notIterable "builtin_function_or_method"))
    | v => .error (.fault (.noAttribute v.typeName "values"))
  | .branch, _ => .error (.fault (.noAttribute v.typeName "test"))
  | .rest, _ | .restKeywords, _ => .error (.fault (.noAttribute v.typeName "arg"))

abbrev PrintItem := Item Printer

abbrev PrintPart := Part Printer

def emptyPart : PrintPart := ⟨.none, printLeaf .none, [], []⟩

namespace PrintItem

def print (i : PrintItem) : Printer := i.result

end PrintItem

namespace PrintPart

def print (p : PrintPart) : Printer := p.result

def isTruthy (p : PrintPart) : Bool := p.value.isTruthy

def elements? (p : PrintPart) : Option (List PrintItem) :=
  match p.value with
  | .str _ | .bytes _ => p.value.elements?.map (·.map fun v => ⟨v, printLeaf v⟩)
  | .list _ | .tuple _ | .set _ | .frozenset _ | .dict _ => some p.items
  | _ => none

def elements (p : PrintPart) : Except Error (List PrintItem) :=
  match p.elements? with
  | some xs => .ok xs
  | none => .error (.fault (.notIterable p.value.typeName))

def length (p : PrintPart) : Except Error Nat :=
  match p.elements? with
  | some xs => .ok xs.length
  | none => .error (.fault (.noLength p.value.typeName))

end PrintPart

/-- A node about to be printed. -/
structure Subject where
  kind : Kind
  value : Value
  parts : Parts Printer
  /-- Show invisible nodes and line numbers. -/
  debug : Bool

namespace Subject

def part? (s : Subject) (name : String) : Option PrintPart :=
  match s.parts.lookup name with
  | some p => some p
  | none => if s.kind.default? name then some emptyPart else none

def part (s : Subject) (name : String) : Except Error PrintPart :=
  match s.part? name with
  | some p => .ok p
  | none => .error (.fault (.noAttribute s.kind.typeName name))

def child (s : Subject) (name : String) (indent : Nat) : Printed := do
  (← s.part name).print .plain indent

end Subject

/-- Only text can be written. -/
def write (v : Value) : Printed :=
  match v with
  | .str s => .ok s
  | v => .error (.fault (.notText v.typeName))

/-- Text joined with something that must be text too. -/
def join (before : String) (v : Value) : Printed :=
  match v with
  | .str s => .ok (before ++ s)
  | v => .error (.fault (.notJoinable v.typeName))

def each (items : List PrintItem) (f : PrintItem → Printed) : Printed := do
  return String.join (← items.mapM f)

def interleave (sep : String) (items : List PrintItem) (f : PrintItem → Printed) : Printed := do
  return sep.intercalate (← items.mapM f)

/-- Five columns for a line number. -/
def lineNumber (v : Value) : Printed :=
  let padded (n : Int) : String :=
    let digits := toString n
    String.ofList (List.replicate (5 - digits.length) ' ') ++ digits
  match v with
  | .int n => .ok (padded n)
  | .bool b => .ok (padded (if b then 1 else 0))
  | .float _ | .complex _ | .str _ => .error (.fault (.noIntegerFormat v.typeName))
  | v => .error (.fault (.noFormat v.typeName))

/-- In debug form a line starts with the line number of the node it belongs to. -/
def lineMark (debug : Bool) (owner : Option Value) : Printed :=
  match owner with
  | some v =>
    if debug && v.isNode then
      match v.attr? "lineno" with
      | some n => if n.isTruthy then return "L" ++ (← lineNumber n) ++ " " else return "L ---- "
      | none => return "L ---- "
    else return ""
  | none => return ""

def indentation (indent : Nat) : String := String.join (List.replicate indent "    ")

def line (debug : Bool) (owner : Option Value) (indent : Nat) (text : String) : Printed := do
  return "\n" ++ (← lineMark debug owner) ++ indentation indent ++ text

namespace Subject

def ownLine (s : Subject) (indent : Nat) (text : String) : Printed :=
  line s.debug (some s.value) indent text

def bareLine (s : Subject) (indent : Nat) (text : String) : Printed :=
  line s.debug none indent text

def suite (s : Subject) (name : String) (indent : Nat) : Printed := do
  return ":" ++ (← s.child name (indent + 1))

def optionalSuite (s : Subject) (name header : String) (indent : Nat) : Printed := do
  if (← s.part name).isTruthy then
    return (← s.bareLine indent header) ++ (← s.suite name indent)
  else return ""

def optional (s : Subject) (name before : String) (indent : Nat) : Printed := do
  let p ← s.part name
  if p.isTruthy then return before ++ (← p.print .plain indent) else return ""

def commaList (s : Subject) (name : String) (indent : Nat) : Printed := do
  interleave ", " (← (← s.part name).elements) (·.print .plain indent)

end Subject

end TreeMacros.Source
