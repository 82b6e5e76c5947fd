/-!
# Errors

Two sorts of failure: a *fault*, when a value does not have the shape that an operation reads, and
a *report*, which the library raises on purpose and words itself. A report may rest on an earlier
failure, its cause.
-/

namespace TreeMacros

/-- The class of an error. -/
inductive ErrorKind where
  | attributeError | keyError | indexError | typeError | valueError | assertionError
  | badSyntax | badIndentation | badTabs | importError | moduleNotFound | notImplemented | printingError
  | expansionError | recursionError | decodeError | fileNotFound | isADirectory | zeroDivision
  | inputRejected | osError | runtimeError
  /-- A class that a macro brings along. -/
  | custom (name : String)
  deriving DecidableEq, Repr, Inhabited

namespace ErrorKind

def name : ErrorKind → String
  | .attributeError => "AttributeError"
  | .keyError => "KeyError"
  | .indexError => "IndexError"
  | .typeError => "TypeError"
  | .valueError => "ValueError"
  | .assertionError => "AssertionError"
  | .badSyntax => "SyntaxError"
  | .badIndentation => "IndentationError"
  | .badTabs => "TabError"
  | .importError => "ImportError"
  | .moduleNotFound => "ModuleNotFoundError"
  | .notImplemented => "NotImplementedError"
  | .printingError => "UnparserError"
  | .expansionError => "MacroExpansionError"
  | .recursionError => "RecursionError"
  | .decodeError => "UnicodeDecodeError"
  | .fileNotFound => "FileNotFoundError"
  | .isADirectory => "IsADirectoryError"
  | .zeroDivision => "ZeroDivisionError"
  | .inputRejected => "InputRejected"
  | .osError => "OSError"
  | .runtimeError => "RuntimeError"
  | .custom name => name

def className : ErrorKind → String
  | .printingError => "<class 'mcpyrate.unparser.UnparserError'>"
  | .expansionError => "<class 'mcpyrate.core.MacroExpansionError'>"
  | k => "<class '" ++ k.name ++ "'>"

/-- Printing errors and indentation errors are syntax errors, a missing module is an import error,
and so on: whether an error of class `k` counts as one of class `family`. -/
def isA (k family : ErrorKind) : Bool :=
  k == family ||
    match family with
    | .badSyntax => k == .printingError || k == .badIndentation || k == .badTabs
    | .badIndentation => k == .badTabs
    | .importError => k == .moduleNotFound
    | .valueError => k == .decodeError
    | .osError => k == .fileNotFound || k == .isADirectory
    | _ => false

end ErrorKind

/-- An operation met a value it cannot read. -/
inductive Fault where
  | noAttribute (owner name : String)
  | noKey (key : String)
  | noIndex (owner : String)
  | notText (got : String)
  | notJoinable (got : String)
  | notRepeatable (got : String)
  | notIterable (got : String)
  | noLength (got : String)
  | noIntegerFormat (got : String)
  | noFormat (got : String)
  | unhashable (got : String)
  | wrongCall (what : String)
  | unpackMismatch
  | assertion
  | badSource (kind : ErrorKind)
  | noModule (name : String)
  | importFailure (text : String)
  | noPackage (name : String)
  | tooDeep
  | undecodable
  | missingFile (path : String)
  | directory (path : String)
  | divisionByZero
  | emptyPop
  /-- Something else that went wrong outside of the library. -/
  | outside (kind : ErrorKind) (text : String)
  deriving DecidableEq, Repr, Inhabited

namespace Fault

def kind : Fault → ErrorKind
  | noAttribute .. => .attributeError
  | noKey _ => .keyError
  | noIndex _ => .indexError
  | notText _ | notJoinable _ | notRepeatable _ | notIterable _ | noLength _ => .typeError
  | noIntegerFormat _ => .valueError
  | noFormat _ | unhashable _ | wrongCall _ => .typeError
  | unpackMismatch => .valueError
  | assertion => .assertionError
  | badSource k => k
  | noModule _ => .moduleNotFound
  | importFailure _ | noPackage _ => .importError
  | tooDeep => .recursionError
  | undecodable => .decodeError
  | missingFile _ => .fileNotFound
  | directory _ => .isADirectory
  | divisionByZero => .zeroDivision
  | emptyPop => .keyError
  | outside k _ => k

/-- The text of a fault, where it is shown inside another text. -/
def text : Fault → String
  | noAttribute owner name => s!"'{owner}' object has no attribute '{name}'"
  | noKey key => key
  | noIndex owner => s!"{owner} index out of range"
  | notText got => s!"string argument expected, got '{got}'"
  | notJoinable got => s!"can only concatenate str (not \"{got}\") to str"
  | notRepeatable got => s!"can't multiply sequence by non-int of type '{got}'"
  | notIterable got => s!"'{got}' object is not iterable"
  | noLength got => s!"object of type '{got}' has no len()"
  | noIntegerFormat got => s!"Unknown format code 'd' for object of type '{got}'"
  | noFormat got => s!"unsupported format string passed to {got}.__format__"
  | unhashable got => s!"unhashable type: '{got}'"
  | wrongCall what => what
  | unpackMismatch => "not enough values to unpack"
  | assertion => ""
  | badSource _ => "invalid syntax"
  | noModule name => s!"No module named '{name}'"
  | importFailure t => t
  | noPackage name =>
    s!"no package specified for '{name}' (required for relative module names)"
  | tooDeep => "maximum recursion depth exceeded"
  | undecodable => "invalid start byte"
  | missingFile path => s!"No such file or directory: '{path}'"
  | directory path => s!"Is a directory: '{path}'"
  | divisionByZero => "division by zero"
  | emptyPop => "'popitem(): dictionary is empty'"
  | outside _ t => t

end Fault

/-- What the library reports on purpose. -/
inductive Report where
  -- printing
  | unprintable (typeName : String)
  | printedAsDump (dump : String)
  | printedAsValue (typeName repr : String)
  | conversionCode (repr : String)
  | insideFormatted (repr : String)
  | dumpOfValue (typeName : String)
  -- records and levels
  | reservedName (name : String)
  | levelType (typeName repr : String)
  | levelRange (repr : String)
  -- expansion
  | useSite (message : String)
  | expansionType (location typeName repr : String)
  -- quotation
  | wrongForm (operator forms : String)
  | outsideQuote (operator : String)
  | singleTarget (source : String)
  | liftMarker (source : String)
  | liftValue (repr : String)
  | lowerTree (source : String)
  | notDotted
  | notOurs
  -- splicing
  | emptyBody
  -- imports
  | atSearchRoot (filename resolved root : String)
  | notInSearchPath (filename resolved : String)
  | packageName (filename : String)
  | missingModuleName (location : String)
  | missingModule (location name : String)
  | asNaming
  | missingName (location name module : String)
  -- dialects
  | unparsableResult (filename : String)
  | notADialect (filename name repr : String)
  | dialectInit (name : String)
  | dialectMethod (name method : String)
  | dialectFailure (name method : String)
  | dialectEmpty (name method : String)
  -- debugging aids
  | stepArguments
  | stepMode (repr source : String)
  | stepModeName (repr : String)
  -- whole modules
  | markersRemain
  | rejected (message : String)
  | scriptName
  | mainMissing (message : String)
  | mainPackage (name : String)
  | oneProgram
  | cannotOpen (filename : String)
  -- raised by a transformer
  | scripted (kind : ErrorKind) (message : Option String)
  deriving DecidableEq, Repr, Inhabited

namespace Report

def kind : Report → ErrorKind
  | unprintable _ | printedAsDump _ | printedAsValue .. => .printingError
  | conversionCode _ | insideFormatted _ => .valueError
  | dumpOfValue _ => .typeError
  | reservedName _ => .attributeError
  | levelType .. => .typeError
  | levelRange _ => .valueError
  | useSite _ | expansionType .. => .expansionError
  | wrongForm .. | outsideQuote _ | singleTarget _ => .badSyntax
  | liftMarker _ | liftValue _ | lowerTree _ | notDotted => .typeError
  | notOurs => .notImplemented
  | emptyBody => .valueError
  | atSearchRoot .. => .importError
  | notInSearchPath .. => .valueError
  | packageName _ => .importError
  | missingModuleName _ => .badSyntax
  | missingModule .. => .moduleNotFound
  | asNaming | missingName .. | unparsableResult _ => .importError
  | notADialect .. => .typeError
  | dialectInit _ | dialectMethod .. | dialectFailure .. | dialectEmpty .. => .importError
  | stepArguments => .badSyntax
  | stepMode .. => .typeError
  | stepModeName _ => .valueError
  | markersRemain => .expansionError
  | rejected _ => .inputRejected
  | scriptName => .valueError
  | mainMissing _ => .moduleNotFound
  | mainPackage _ => .importError
  | oneProgram => .valueError
  | cannotOpen _ => .fileNotFound
  | scripted k _ => k

def message : Report → String
  | unprintable t => s!"Don't know how to unparse AST node type {t}"
  | printedAsDump d =>
    let sep := if d.toList.contains '\n' then "\n" else " "
    s!"unparse failed, likely invalid AST; here's an AST dump instead:{sep}{d}"
  | printedAsValue t r =>
    let sep := if r.toList.contains '\n' then "\n" else " "
    "unparse failed, fallback AST dump failed, likely not an AST; " ++
      s!"here's the type and repr instead:{sep}{t}{sep}{r}"
  | conversionCode r => s!"Don't know how to unparse conversion code {r}"
  | insideFormatted r => s!"Don't know how to unparse {r} inside an f-string"
  | dumpOfValue t => s!"expected AST, got {t}"
  | reservedName n => s!"Cannot write to reserved attribute '{n}'"
  | levelType t r => s!"Expected integer `value`, got {t} with value {r}"
  | levelRange r => s!"`value` must be >= 0, got {r}"
  | useSite m => m
  | expansionType loc t r =>
    s!"{loc}\nexpected macro to return AST, iterable or None; got {t} with value {r}"
  | wrongForm op forms => s!"`{op}` is an {forms} macro only"
  | outsideQuote op => s!"`{op}` encountered while quotelevel < 1"
  | singleTarget src => s!"expected a single asname, got {src}"
  | liftMarker src => s!"Cannot astify internal AST markers, got {src}"
  | liftValue r => s!"Don't know how to astify {r}"
  | lowerTree src => s!"Don't know how to unastify {src}"
  | notDotted | notOurs => ""
  | emptyBody => "expected at least one statement in `body`"
  | atSearchRoot f r root =>
    s!"{f}{r} is not in a package, but at the root level of syspath {root}"
  | notInSearchPath f r => s!"{f}{r} not under any directory in `sys.path`"
  | packageName f =>
    s!"while resolving absolute package name of {f}, which uses relative macro-imports"
  | missingModuleName loc => s!"{loc}\nmissing module name in macro-import"
  | missingModule loc n => s!"{loc}\nNo module named {n}"
  | asNaming => "This expander (see call stack) does not support as-naming macro-imports."
  | missingName loc n m => s!"{loc}\ncannot import name '{n}' from module {m}"
  | unparsableResult f =>
    s!"Failed to parse {f} as Python after applying all dialect source transformers."
  | notADialect f n r => s!"{f}: {n} is not a `Dialect`, got {r}"
  | dialectInit n => s!"Unexpected exception while instantiating dialect `{n}`"
  | dialectMethod n m => s!"Dialect `{n}` missing required transformer method `{m}`"
  | dialectFailure n m => s!"Unexpected exception in dialect transformer `{n}.{m}`"
  | dialectEmpty n m => s!"Dialect transformer `{n}.{m}` returned an empty result."
  | stepArguments => "expected `step_expansion` or `step_expansion['mode_str']`"
  | stepMode r src => s!"expected mode_str, got {r} {src}"
  | stepModeName r => s!"expected mode_str either 'unparse' or 'dump', got {r}"
  | markersRemain => "\x7bpath\x7d: AST markers remaining after expansion: \x7bremaining_markers\x7d"
  | rejected m => m
  | scriptName =>
    "In script mode, please add the containing directory to `sys.path` and then " ++
      "top-level import the final component of the name."
  | mainMissing m => m
  | mainPackage n =>
    s!"No module named {n}.__main__; '{n}' is a package and cannot be directly executed"
  | oneProgram =>
    "Please specify just one main program to run (either filename.py or -m module, not both)."
  | cannotOpen f => s!"Can't open file '{f}'"
  | scripted _ m => m.getD ""

end Report

/-- A failure of an operation. -/
inductive Error where
  | fault (f : Fault)
  | report (r : Report) (cause : Option Error)
  deriving Repr, Inhabited

namespace Error

def kind : Error → ErrorKind
  | fault f => f.kind
  | report r _ => r.kind

/-- The wording, of reports only. -/
def message? : Error → Option String
  | fault _ => none
  | report r _ => some r.message

def cause? : Error → Option Error
  | fault _ => none
  | report _ c => c

def text : Error → String
  | fault f => f.text
  | report r _ => r.message

end Error

end TreeMacros
