import TreeMacros.Source.Part

/-!
# Printing expressions

Compound expressions are parenthesised, so that precedence never matters.
-/

namespace TreeMacros.Source

def unarySign : Kind → Option String
  | .invert => some "~"
  | .notOp => some "not"
  | .uAdd => some "+"
  | .uSub => some "-"
  | _ => none

def binarySign : Kind → Option String
  | .add => some "+"
  | .sub => some "-"
  | .mult => some "*"
  | .matMult => some "@"
  | .div => some "/"
  | .mod => some "%"
  | .lShift => some "<<"
  | .rShift => some ">>"
  | .bitOr => some "|"
  | .bitXor => some "^"
  | .bitAnd => some "&"
  | .floorDiv => some "//"
  | .pow => some "**"
  | _ => none

def compareSign : Kind → Option String
  | .eq => some "=="
  | .notEq => some "!="
  | .lt => some "<"
  | .ltE => some "<="
  | .gt => some ">"
  | .gtE => some ">="
  | .is => some "is"
  | .isNot => some "is not"
  | .isIn => some "in"
  | .notIn => some "not in"
  | _ => none

def boolSign : Kind → Option String
  | .andOp => some "and"
  | .orOp => some "or"
  | _ => none

/-- The sign of an operator node; what is no operator is a missing key. -/
def sign (table : Kind → Option String) (v : Value) : Printed :=
  match v.kind?.bind table with
  | some s => .ok s
  | none => .error (.fault (.noKey (Text.quoted v.typeName)))

/-- Infinities are written as a literal that overflows. -/
def writeInfinities : List Char → List Char
  | 'i' :: 'n' :: 'f' :: cs => "1e309".toList ++ writeInfinities cs
  | c :: cs => c :: writeInfinities cs
  | [] => []

def writtenNumber (written : String) : String :=
  String.ofList (writeInfinities written.toList)

def literal (v : Value) : String :=
  match v with
  | .int _ | .float _ | .complex _ => writtenNumber v.repr
  | .ellipsis => "..."
  | v => v.repr

/-- A character between the apostrophes of a formatted string. -/
def escapeChar (c : Char) : List Char :=
  if c = Text.apostrophe then ['\\', c] else if c = '\n' then ['\\', 'n'] else [c]

def escapePiece (s : String) : String := String.ofList (s.toList.flatMap escapeChar)

def piece (v : Value) : Printed :=
  match v with
  | .str s => .ok (escapePiece s)
  | .bytes _ => .error (.fault (.wrongCall "a bytes-like object is required, not 'str'"))
  | v => .error (.fault (.noAttribute v.typeName "replace"))

namespace Subject

/-- A piece of a formatted string: text stands as it is, a field stands in braces. -/
def pieceOf (s : Subject) (indent : Nat) (item : PrintItem) : Printed :=
  match item.value.kind? with
  | some .constant => do piece (← item.value.attr "value")
  | some .str => do piece (← item.value.attr "s")
  | some .formattedValue => item.print .field indent
  | _ => .error (.report (.insideFormatted s.value.repr) none)

def pieces (s : Subject) (indent : Nat) : Printed := do
  each (← (← s.part "values").elements) (s.pieceOf indent)

def conversion (v : Value) : Printed :=
  match v with
  | .int 115 => .ok "!s"
  | .int 114 => .ok "!r"
  | .int 97 => .ok "!a"
  | .int (-1) => .ok ""
  | v => .error (.report (.conversionCode v.display) none)

def replacement (s : Subject) (indent : Nat) : Printed := do
  let value ← s.child "value" indent
  let code ← conversion (← s.part "conversion").value
  let format ← s.part "format_spec"
  let format ← if format.isTruthy then do pure (":" ++ (← format.print .pieces indent)) else pure ""
  return "\x7b" ++ value ++ code ++ format ++ "\x7d"

def bracketed (s : Subject) (before after name : String) (indent : Nat) : Printed := do
  return before ++ (← s.commaList name indent) ++ after

def generators (s : Subject) (indent : Nat) : Printed := do
  each (← (← s.part "generators").elements) (·.print .plain indent)

def comprehended (s : Subject) (before after : String) (indent : Nat) : Printed := do
  return before ++ (← s.child "elt" indent) ++ (← s.generators indent) ++ after

def operand (s : Subject) (word : String) (indent : Nat) : Printed := do
  return "(" ++ word ++ (← s.optional "value" " " indent) ++ ")"

/-- An integer literal needs a blank before the dot of an attribute. -/
def needsBlank (v : Value) : Except Error Bool := do
  match v with
  | .node k _ =>
    if k.isConstant then
      match ← v.attr "value" with
      | .int _ | .bool _ => return true
      | _ => return false
    else return false
  | _ => return false

def dictEntries (s : Subject) (indent : Nat) : Printed := do
  let keys ← s.part "keys"
  let values ← s.part "values"
  let entries ← ((← keys.elements).zip (← values.elements)).mapM fun (k, v) => do
    return (← k.print .plain indent) ++ ": " ++ (← v.print .plain indent)
  return "\x7b" ++ ", ".intercalate entries ++ "\x7d"

def comparison (s : Subject) (indent : Nat) : Printed := do
  let left ← s.child "left" indent
  let ops ← s.part "ops"
  let operands ← s.part "comparators"
  let rest ← ((← ops.elements).zip (← operands.elements)).mapM fun (o, e) => do
    return " " ++ (← sign compareSign o.value) ++ " " ++ (← e.print .plain indent)
  return "(" ++ left ++ String.join rest ++ ")"

def actuals (s : Subject) (positional : String) (indent : Nat) : Printed := do
  let first ← (← (← s.part positional).elements).mapM (·.print .plain indent)
  let second ← (← (← s.part "keywords").elements).mapM (·.print .plain indent)
  return "(" ++ ", ".intercalate (first ++ second) ++ ")"

def annotation (s : Subject) (indent : Nat) : Printed := s.optional "annotation" ": " indent

def parameter (item : PrintItem) (default? : Option PrintItem) (indent : Nat) : Printed := do
  let name ← item.print .plain indent
  match default? with
  | some d =>
    if d.value.isTruthy then return name ++ "=" ++ (← d.print .plain indent) else return name
  | none => return name

/-- Parameters, each after a comma unless it is the first one that is written. -/
def parameters (first : Bool) (ps : List (PrintItem × Option PrintItem)) (indent : Nat) :
    Except Error (Bool × String) := do
  let texts ← ps.mapM fun p => parameter p.1 p.2 indent
  if first then return (first && texts.isEmpty, ", ".intercalate texts)
  else return (false, String.join (texts.map (", " ++ ·)))

/-- The defaults of positional parameters belong to the last ones. -/
def alignDefaults (count : Nat) (defaults : List PrintItem) : List (Option PrintItem) :=
  List.replicate (count - defaults.length) none ++ defaults.map some

/-- The positional parameters, and whether there are none. The mark that ends the positional-only
parameters is written after each of the two groups, also when they are empty. -/
def positionals (s : Subject) (indent : Nat) : Except Error (Bool × String) := do
  let args ← s.part "args"
  let argCount ← args.length
  let only? := s.part? "posonlyargs"
  let onlyCount ← match only? with
    | some p => p.length
    | none => pure 0
  let defaults ← s.part "defaults"
  let _ ← defaults.length
  let defaults ← match defaults.value with
    | .list _ => defaults.elements
    | v => .error (.fault (.wrongCall s!"can only concatenate list (not \"{v.typeName}\") to list"))
  let aligned := alignDefaults (argCount + onlyCount) defaults
  match only? with
  | some p => do
    let (first, a) ← parameters true ((← p.elements).zip (aligned.take onlyCount)) indent
    let (first, b) ← parameters first ((← args.elements).zip (aligned.drop onlyCount)) indent
    return (first, a ++ ", /" ++ b ++ ", /")
  | none => parameters true ((← args.elements).zip aligned) indent

/-- The star before the keyword-only parameters, or the parameter that collects the other positional
arguments. -/
def star (s : Subject) (first : Bool) (indent : Nat) : Except Error (Bool × String) := do
  let rest ← s.part "vararg"
  if rest.isTruthy then
    return (false, (if first then "*" else ", *") ++ (← rest.print .rest indent))
  else
    let only ← s.part "kwonlyargs"
    if only.isTruthy then return (false, if first then "*" else ", *")
    else return (first, "")

def keywordOnly (s : Subject) (first : Bool) (indent : Nat) : Except Error (Bool × String) := do
  let only ← s.part "kwonlyargs"
  if only.isTruthy then
    let values ← s.part "kw_defaults"
    parameters first ((← only.elements).zip ((← values.elements).map some)) indent
  else return (first, "")

/-- The parameter that collects the other keyword arguments. -/
def doubleStar (s : Subject) (first : Bool) (indent : Nat) : Printed := do
  let rest ← s.part "kwarg"
  if rest.isTruthy then
    return (if first then "" else ", ") ++ (← rest.print .restKeywords indent)
  else return ""

def parameterList (s : Subject) (indent : Nat) : Printed := do
  let (first, positional) ← s.positionals indent
  let (first, star) ← s.star first indent
  let (first, keywords) ← s.keywordOnly first indent
  return positional ++ star ++ keywords ++ (← s.doubleStar first indent)

/-- Prints an expression or a part of one; `none` for other nodes. -/
def expression? (s : Subject) (indent : Nat) : Option Printed :=
  match s.kind with
  | .await => some (s.operand "await" indent)
  | .yield => some (s.operand "yield" indent)
  | .yieldFrom => some (s.operand "yield from" indent)
  | .namedExpr => some do
    return "(" ++ (← s.child "target" indent) ++ " := " ++ (← s.child "value" indent) ++ ")"
  | .constant => some do
    let unicode := match s.part? "kind" with
      | some ⟨.str "u", _, _, _⟩ => "u"
      | _ => ""
    return unicode ++ literal (← s.part "value").value
  | .bytes | .str => some do return (← s.part "s").value.repr
  | .nameConstant => some do return (← s.part "value").value.repr
  | .num => some do return writtenNumber (← s.part "n").value.repr
  | .ellipsis => some (.ok "...")
  | .name => some do write (← s.part "id").value
  | .list => some (s.bracketed "[" "]" "elts" indent)
  | .listComp => some (s.comprehended "[" "]" indent)
  | .generatorExp => some (s.comprehended "(" ")" indent)
  | .setComp => some (s.comprehended "\x7b" "\x7d" indent)
  | .dictComp => some do
    return "\x7b" ++ (← s.child "key" indent) ++ ": " ++ (← s.child "value" indent) ++
      (← s.generators indent) ++ "\x7d"
  | .comprehension => some do
    let async := if (← s.part "is_async").isTruthy then " async" else ""
    let target ← s.child "target" indent
    let source ← s.child "iter" indent
    let conditions ← each (← (← s.part "ifs").elements) fun c => do
      return " if " ++ (← c.print .plain indent)
    return async ++ " for " ++ target ++ " in " ++ source ++ conditions
  | .ifExp => some do
    return "(" ++ (← s.child "body" indent) ++ " if " ++ (← s.child "test" indent) ++ " else " ++
      (← s.child "orelse" indent) ++ ")"
  | .set => some do
    if (← s.part "elts").isTruthy then s.bracketed "\x7b" "\x7d" "elts" indent
    else .error (.fault .assertion)
  | .dict => some (s.dictEntries indent)
  | .tuple => some do
    let elts ← s.part "elts"
    if (← elts.length) == 1 then return "(" ++ (← s.commaList "elts" indent) ++ ",)"
    else s.bracketed "(" ")" "elts" indent
  | .unaryOp => some do
    return "(" ++ (← sign unarySign (← s.part "op").value) ++ " " ++ (← s.child "operand" indent) ++
      ")"
  | .binOp => some do
    let left ← s.child "left" indent
    let op ← sign binarySign (← s.part "op").value
    return "(" ++ left ++ " " ++ op ++ " " ++ (← s.child "right" indent) ++ ")"
  | .compare => some (s.comparison indent)
  | .boolOp => some do
    let op := (← s.part "op").value
    let word ← match op.kind?.bind boolSign with
      | some w => pure w
      | none => .error (.fault (.noKey op.className))
    return "(" ++
      (← interleave (" " ++ word ++ " ") (← (← s.part "values").elements) (·.print .plain indent)) ++
      ")"
  | .attributeRef => some do
    let value ← s.part "value"
    let text ← value.print .plain indent
    let blank := if ← needsBlank value.value then " " else ""
    return text ++ blank ++ "." ++ (← write (← s.part "attr").value)
  | .call => some do return (← s.child "func" indent) ++ (← s.actuals "args" indent)
  | .formattedValue => some do
    return "f" ++ String.singleton Text.apostrophe ++ (← s.replacement indent) ++
      String.singleton Text.apostrophe
  | .joinedStr => some do
    return "f" ++ String.singleton Text.apostrophe ++ (← s.pieces indent) ++
      String.singleton Text.apostrophe
  | .subscript => some do
    return (← s.child "value" indent) ++ "[" ++ (← s.child "slice" indent) ++ "]"
  | .starred => some do return "*" ++ (← s.child "value" indent)
  | .index => some (s.child "value" indent)
  | .slice => some do
    return (← s.optional "lower" "" indent) ++ ":" ++ (← s.optional "upper" "" indent) ++
      (← s.optional "step" ":" indent)
  | .extSlice => some (s.commaList "dims" indent)
  | .arg => some do return (← write (← s.part "arg").value) ++ (← s.annotation indent)
  | .arguments => some (s.parameterList indent)
  | .keyword => some do
    let name := (← s.part "arg").value
    let before ← if name.isNone then pure "**" else do pure ((← write name) ++ "=")
    return before ++ (← s.child "value" indent)
  | .lambda => some do
    return "(lambda " ++ (← s.child "args" indent) ++ ": " ++ (← s.child "body" indent) ++ ")"
  | .importAlias => some do
    let name ← write (← s.part "name").value
    let asname := (← s.part "asname").value
    if asname.isTruthy then return name ++ (← join " as " asname) else return name
  | .withItem => some do
    return (← s.child "context_expr" indent) ++ (← s.optional "optional_vars" " as " indent)
  | _ => none

end Subject

end TreeMacros.Source
