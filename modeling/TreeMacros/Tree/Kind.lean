/-!
# Node kinds

The grammar of syntax trees: every kind of node, its fields in order, and which location
attributes it carries. A field is required or optional; reading an unset optional field gives
the empty value, reading an unset required one fails.
-/

namespace TreeMacros

/-- A field of a node kind. -/
structure Field where
  name : String
  optional : Bool
  deriving DecidableEq, Repr

namespace Field

def req (name : String) : Field := ⟨name, false⟩

def opt (name : String) : Field := ⟨name, true⟩

end Field

/-- How a kind of node carries source locations. With `lenient` the end of the range reads as empty
while it is unset; with `strict` all four attributes must be set before they can be read. -/
inductive Placement where
  | absent | lenient | strict
  deriving DecidableEq, Repr

/-- What the grammar says about one kind of node. -/
structure Shape where
  name : String
  fields : List Field
  placement : Placement
  deriving DecidableEq, Repr

/-- The kinds of nodes: modules, statements, expressions, their parts, operators, the older
literal nodes, and the markers that macros leave for one another. -/
inductive Kind where
  | module | interactive | expression | functionType | functionDef | asyncFunctionDef | classDef
  | returnStmt | delete | assign | augAssign | annAssign | forStmt | asyncFor | whileStmt
  | ifStmt | withStmt | asyncWith | matchStmt | raiseStmt | tryStmt | tryStar | assertStmt
  | importStmt | importFrom | globalStmt | nonlocalStmt | exprStmt | passStmt | breakStmt
  | continueStmt | boolOp | namedExpr | binOp | unaryOp | lambda | ifExp | dict | set | listComp
  | setComp | generatorExp | dictComp | await | yield | yieldFrom | compare | call
  | formattedValue | joinedStr | constant | attributeRef | subscript | starred | name | list
  | tuple | slice | index | extSlice | comprehension | exceptHandler | arguments | arg | keyword
  | importAlias | withItem | matchCase | typeIgnore | matchValue | matchSingleton | matchSequence
  | matchMapping | matchClass | matchStar | matchAs | matchOr | load | store | del | param
  | andOp | orOp | add | sub | mult | matMult | div | mod | pow | lShift | rShift | bitOr
  | bitXor | bitAnd | floorDiv | invert | notOp | uAdd | uSub | eq | notEq | lt | ltE | gt | gtE
  | is | isNot | isIn | notIn | tree | stmt | expr | num | str | bytes | nameConstant | ellipsis
  | marker | expanderMarker | done | quoteMarker | literal | captureLater
  deriving DecidableEq, Repr, Inhabited

namespace Kind

open TreeMacros.Field in
/-- The grammar. -/
def shape : Kind → Shape
  | .module => ⟨"Module", [req "body", req "type_ignores"], .absent⟩
  | .interactive => ⟨"Interactive", [req "body"], .absent⟩
  | .expression => ⟨"Expression", [req "body"], .absent⟩
  | .functionType => ⟨"FunctionType", [req "argtypes", req "returns"], .absent⟩
  | .functionDef => ⟨"FunctionDef", [req "name", req "args", req "body", req "decorator_list",
      opt "returns", opt "type_comment"], .lenient⟩
  | .asyncFunctionDef => ⟨"AsyncFunctionDef", [req "name", req "args", req "body", req "decorator_list",
      opt "returns", opt "type_comment"], .lenient⟩
  | .classDef => ⟨"ClassDef", [req "name", req "bases", req "keywords",
      req "body", req "decorator_list"], .lenient⟩
  | .returnStmt => ⟨"Return", [opt "value"], .lenient⟩
  | .delete => ⟨"Delete", [req "targets"], .lenient⟩
  | .assign => ⟨"Assign", [req "targets", req "value", opt "type_comment"], .lenient⟩
  | .augAssign => ⟨"AugAssign", [req "target", req "op", req "value"], .lenient⟩
  | .annAssign => ⟨"AnnAssign", [req "target", req "annotation", opt "value", req "simple"], .lenient⟩
  | .forStmt => ⟨"For", [req "target", req "iter", req "body",
      req "orelse", opt "type_comment"], .lenient⟩
  | .asyncFor => ⟨"AsyncFor", [req "target", req "iter", req "body",
      req "orelse", opt "type_comment"], .lenient⟩
  | .whileStmt => ⟨"While", [req "test", req "body", req "orelse"], .lenient⟩
  | .ifStmt => ⟨"If", [req "test", req "body", req "orelse"], .lenient⟩
  | .withStmt => ⟨"With", [req "items", req "body", opt "type_comment"], .lenient⟩
  | .asyncWith => ⟨"AsyncWith", [req "items", req "body", opt "type_comment"], .lenient⟩
  | .matchStmt => ⟨"Match", [req "subject", req "cases"], .lenient⟩
  | .raiseStmt => ⟨"Raise", [opt "exc", opt "cause"], .lenient⟩
  | .tryStmt => ⟨"Try", [req "body", req "handlers", req "orelse", req "finalbody"], .lenient⟩
  | .tryStar => ⟨"TryStar", [req "body", req "handlers", req "orelse", req "finalbody"], .lenient⟩
  | .assertStmt => ⟨"Assert", [req "test", opt "msg"], .lenient⟩
  | .importStmt => ⟨"Import", [req "names"], .lenient⟩
  | .importFrom => ⟨"ImportFrom", [opt "module", req "names", opt "level"], .lenient⟩
  | .globalStmt => ⟨"Global", [req "names"], .lenient⟩
  | .nonlocalStmt => ⟨"Nonlocal", [req "names"], .lenient⟩
  | .exprStmt => ⟨"Expr", [req "value"], .lenient⟩
  | .passStmt => ⟨"Pass", [], .lenient⟩
  | .breakStmt => ⟨"Break", [], .lenient⟩
  | .continueStmt => ⟨"Continue", [], .lenient⟩
  | .boolOp => ⟨"BoolOp", [req "op", req "values"], .lenient⟩
  | .namedExpr => ⟨"NamedExpr", [req "target", req "value"], .lenient⟩
  | .binOp => ⟨"BinOp", [req "left", req "op", req "right"], .lenient⟩
  | .unaryOp => ⟨"UnaryOp", [req "op", req "operand"], .lenient⟩
  | .lambda => ⟨"Lambda", [req "args", req "body"], .lenient⟩
  | .ifExp => ⟨"IfExp", [req "test", req "body", req "orelse"], .lenient⟩
  | .dict => ⟨"Dict", [req "keys", req "values"], .lenient⟩
  | .set => ⟨"Set", [req "elts"], .lenient⟩
  | .listComp => ⟨"ListComp", [req "elt", req "generators"], .lenient⟩
  | .setComp => ⟨"SetComp", [req "elt", req "generators"], .lenient⟩
  | .generatorExp => ⟨"GeneratorExp", [req "elt", req "generators"], .lenient⟩
  | .dictComp => ⟨"DictComp", [req "key", req "value", req "generators"], .lenient⟩
  | .await => ⟨"Await", [req "value"], .lenient⟩
  | .yield => ⟨"Yield", [opt "value"], .lenient⟩
  | .yieldFrom => ⟨"YieldFrom", [req "value"], .lenient⟩
  | .compare => ⟨"Compare", [req "left", req "ops", req "comparators"], .lenient⟩
  | .call => ⟨"Call", [req "func", req "args", req "keywords"], .lenient⟩
  | .formattedValue => ⟨"FormattedValue", [req "value", req "conversion", opt "format_spec"], .lenient⟩
  | .joinedStr => ⟨"JoinedStr", [req "values"], .lenient⟩
  | .constant => ⟨"Constant", [req "value", opt "kind"], .lenient⟩
  | .attributeRef => ⟨"Attribute", [req "value", req "attr", req "ctx"], .lenient⟩
  | .subscript => ⟨"Subscript", [req "value", req "slice", req "ctx"], .lenient⟩
  | .starred => ⟨"Starred", [req "value", req "ctx"], .lenient⟩
  | .name => ⟨"Name", [req "id", req "ctx"], .lenient⟩
  | .list => ⟨"List", [req "elts", req "ctx"], .lenient⟩
  | .tuple => ⟨"Tuple", [req "elts", req "ctx"], .lenient⟩
  | .slice => ⟨"Slice", [opt "lower", opt "upper", opt "step"], .lenient⟩
  | .index => ⟨"Index", [req "value"], .absent⟩
  | .extSlice => ⟨"ExtSlice", [req "dims"], .absent⟩
  | .comprehension => ⟨"comprehension", [req "target", req "iter", req "ifs",
      req "is_async"], .absent⟩
  | .exceptHandler => ⟨"ExceptHandler", [opt "type", opt "name", req "body"], .lenient⟩
  | .arguments => ⟨"arguments", [req "posonlyargs", req "args", opt "vararg", req "kwonlyargs",
      req "kw_defaults", opt "kwarg", req "defaults"], .absent⟩
  | .arg => ⟨"arg", [req "arg", opt "annotation", opt "type_comment"], .lenient⟩
  | .keyword => ⟨"keyword", [opt "arg", req "value"], .lenient⟩
  | .importAlias => ⟨"alias", [req "name", opt "asname"], .lenient⟩
  | .withItem => ⟨"withitem", [req "context_expr", opt "optional_vars"], .absent⟩
  | .matchCase => ⟨"match_case", [req "pattern", opt "guard", req "body"], .absent⟩
  | .typeIgnore => ⟨"TypeIgnore", [req "lineno", req "tag"], .absent⟩
  | .matchValue => ⟨"MatchValue", [req "value"], .strict⟩
  | .matchSingleton => ⟨"MatchSingleton", [req "value"], .strict⟩
  | .matchSequence => ⟨"MatchSequence", [req "patterns"], .strict⟩
  | .matchMapping => ⟨"MatchMapping", [req "keys", req "patterns", opt "rest"], .strict⟩
  | .matchClass => ⟨"MatchClass", [req "cls", req "patterns", req "kwd_attrs",
      req "kwd_patterns"], .strict⟩
  | .matchStar => ⟨"MatchStar", [opt "name"], .strict⟩
  | .matchAs => ⟨"MatchAs", [opt "pattern", opt "name"], .strict⟩
  | .matchOr => ⟨"MatchOr", [req "patterns"], .strict⟩
  | .load => ⟨"Load", [], .absent⟩
  | .store => ⟨"Store", [], .absent⟩
  | .del => ⟨"Del", [], .absent⟩
  | .param => ⟨"Param", [], .absent⟩
  | .andOp => ⟨"And", [], .absent⟩
  | .orOp => ⟨"Or", [], .absent⟩
  | .add => ⟨"Add", [], .absent⟩
  | .sub => ⟨"Sub", [], .absent⟩
  | .mult => ⟨"Mult", [], .absent⟩
  | .matMult => ⟨"MatMult", [], .absent⟩
  | .div => ⟨"Div", [], .absent⟩
  | .mod => ⟨"Mod", [], .absent⟩
  | .pow => ⟨"Pow", [], .absent⟩
  | .lShift => ⟨"LShift", [], .absent⟩
  | .rShift => ⟨"RShift", [], .absent⟩
  | .bitOr => ⟨"BitOr", [], .absent⟩
  | .bitXor => ⟨"BitXor", [], .absent⟩
  | .bitAnd => ⟨"BitAnd", [], .absent⟩
  | .floorDiv => ⟨"FloorDiv", [], .absent⟩
  | .invert => ⟨"Invert", [], .absent⟩
  | .notOp => ⟨"Not", [], .absent⟩
  | .uAdd => ⟨"UAdd", [], .absent⟩
  | .uSub => ⟨"USub", [], .absent⟩
  | .eq => ⟨"Eq", [], .absent⟩
  | .notEq => ⟨"NotEq", [], .absent⟩
  | .lt => ⟨"Lt", [], .absent⟩
  | .ltE => ⟨"LtE", [], .absent⟩
  | .gt => ⟨"Gt", [], .absent⟩
  | .gtE => ⟨"GtE", [], .absent⟩
  | .is => ⟨"Is", [], .absent⟩
  | .isNot => ⟨"IsNot", [], .absent⟩
  | .isIn => ⟨"In", [], .absent⟩
  | .notIn => ⟨"NotIn", [], .absent⟩
  | .tree => ⟨"AST", [], .absent⟩
  | .stmt => ⟨"stmt", [], .lenient⟩
  | .expr => ⟨"expr", [], .lenient⟩
  | .num => ⟨"Num", [req "n"], .lenient⟩
  | .str => ⟨"Str", [req "s"], .lenient⟩
  | .bytes => ⟨"Bytes", [req "s"], .lenient⟩
  | .nameConstant => ⟨"NameConstant", [req "value", opt "kind"], .lenient⟩
  | .ellipsis => ⟨"Ellipsis", [], .lenient⟩
  | .marker => ⟨"ASTMarker", [req "body"], .absent⟩
  | .expanderMarker => ⟨"MacroExpanderMarker", [req "body"], .absent⟩
  | .done => ⟨"Done", [req "body"], .absent⟩
  | .quoteMarker => ⟨"QuasiquoteMarker", [req "body"], .absent⟩
  | .literal => ⟨"ASTLiteral", [req "body"], .absent⟩
  | .captureLater => ⟨"CaptureLater", [req "body", req "name"], .absent⟩

def all : List Kind :=
  [.module, .interactive, .expression, .functionType, .functionDef, .asyncFunctionDef, .classDef,
   .returnStmt, .delete, .assign, .augAssign, .annAssign, .forStmt, .asyncFor, .whileStmt,
   .ifStmt, .withStmt, .asyncWith, .matchStmt, .raiseStmt, .tryStmt, .tryStar, .assertStmt,
   .importStmt, .importFrom, .globalStmt, .nonlocalStmt, .exprStmt, .passStmt, .breakStmt,
   .continueStmt, .boolOp, .namedExpr, .binOp, .unaryOp, .lambda, .ifExp, .dict, .set, .listComp,
   .setComp, .generatorExp, .dictComp, .await, .yield, .yieldFrom, .compare, .call,
   .formattedValue, .joinedStr, .constant, .attributeRef, .subscript, .starred, .name, .list,
   .tuple, .slice, .index, .extSlice, .comprehension, .exceptHandler, .arguments, .arg, .keyword,
   .importAlias, .withItem, .matchCase, .typeIgnore, .matchValue, .matchSingleton,
   .matchSequence, .matchMapping, .matchClass, .matchStar, .matchAs, .matchOr, .load, .store,
   .del, .param, .andOp, .orOp, .add, .sub, .mult, .matMult, .div, .mod, .pow, .lShift, .rShift,
   .bitOr, .bitXor, .bitAnd, .floorDiv, .invert, .notOp, .uAdd, .uSub, .eq, .notEq, .lt, .ltE,
   .gt, .gtE, .is, .isNot, .isIn, .notIn, .tree, .stmt, .expr, .num, .str, .bytes, .nameConstant,
   .ellipsis, .marker, .expanderMarker, .done, .quoteMarker, .literal, .captureLater]

def typeName (k : Kind) : String := k.shape.name

def fields (k : Kind) : List Field := k.shape.fields

def fieldNames (k : Kind) : List String := k.fields.map (·.name)

def hasField (k : Kind) (name : String) : Bool := k.fieldNames.contains name

def ofName? (name : String) : Option Kind := all.find? (·.typeName == name)

def locationNames : List String := ["lineno", "col_offset", "end_lineno", "end_col_offset"]

/-- Whether nodes of this kind have a place in the source text. -/
def located (k : Kind) : Bool := k.shape.placement != .absent

def isMarker : Kind → Bool
  | .marker | .expanderMarker | .done | .quoteMarker | .literal | .captureLater => true
  | _ => false

/-- Markers form a small hierarchy: two families under the general marker. -/
def isMarkerOf (family k : Kind) : Bool :=
  match family with
  | .marker => k.isMarker
  | .expanderMarker => k == .expanderMarker || k == .done
  | .quoteMarker => k == .quoteMarker || k == .literal || k == .captureLater
  | f => k == f

/-- Literals: the general constant node and its older forms. -/
def isConstant : Kind → Bool
  | .constant | .num | .str | .bytes | .nameConstant | .ellipsis => true
  | _ => false

/-- The module that a node class lives in, as shown in class names. -/
def home (k : Kind) : String :=
  match k with
  | .marker => "mcpyrate.markers"
  | .expanderMarker | .done => "mcpyrate.core"
  | .quoteMarker | .literal | .captureLater => "mcpyrate.quotes"
  | _ => "ast"

/-- The attribute that stands in for an unset one, if any. -/
def default? (k : Kind) (name : String) : Bool :=
  k.fields.any (fun f => f.name == name && f.optional) ||
    (k.shape.placement == .lenient && (name == "end_lineno" || name == "end_col_offset"))

end Kind

end TreeMacros
