import TreeMacros.Quotation.Lift
import TreeMacros.Tree.Dictionary

/-!
# Lowering code back to values

Lowering is the inverse of lifting: it runs code that was made by lifting, and only such code. A
call is run if it names something of the quotation library.
-/

namespace TreeMacros.Quotation

/-- What the name of a callee can stand for. -/
inductive Callee where
  | build (k : Kind)
  | lift
  | lower
  | capture
  | lookup
  | libraryRef
  /-- Something whose result is no tree. -/
  | plain
  /-- Something that cannot be called in this way. -/
  | refused
  deriving DecidableEq, Repr

namespace Callee

/-- Members of the library that give texts, lists or objects. -/
def plainNames : List String :=
  ["gensym", "get_markers", "unparse", "MacroExpander", "NestingLevelTracker", "_capture_into"]

def otherNames : List String :=
  ["ast", "pickle", "global_bindings", "q", "u", "n", "a", "s", "h", "expand1q", "expandq",
   "expand1", "expand", "_lookup_cache", "_quotelevel", "_unquote_expand", "_expand_quasiquotes",
   "__name__", "__doc__", "__package__", "__loader__", "__spec__", "__file__", "__cached__",
   "__builtins__", "__all__"]

def ofName (dotted : String) : Except Error Callee :=
  if !dotted.startsWith "mcpyrate.quotes" then .error (.report .notOurs none)
  else
    match (dotted.toList.splitOn '.').map String.ofList with
    | _ :: _ :: thing :: rest =>
      match thing, rest with
      | "ast", [name] =>
        match Kind.ofName? name with
        | some k =>
          if k.isMarker then .error (.fault (.noAttribute "module" name)) else .ok (build k)
        | none => .error (.fault (.noAttribute "module" name))
      | "astify", [] => .ok lift
      | "unastify", [] => .ok lower
      | "capture", [] => .ok capture
      | "lookup", [] => .ok lookup
      | "_mcpyrate_quotes_attr", [] => .ok libraryRef
      | "ASTMarker", [] => .ok (build .marker)
      | "QuasiquoteMarker", [] => .ok (build .quoteMarker)
      | "ASTLiteral", [] => .ok (build .literal)
      | "CaptureLater", [] => .ok (build .captureLater)
      | thing, [] =>
        if plainNames.contains thing then .ok plain
        else if otherNames.contains thing then .ok refused
        else .error (.fault (.noKey (Text.quoted thing)))
      | thing, name :: _ =>
        if plainNames.contains thing || otherNames.contains thing ||
            ["astify", "unastify", "capture", "lookup", "_mcpyrate_quotes_attr", "ASTMarker",
             "QuasiquoteMarker", "ASTLiteral", "CaptureLater"].contains thing then
          .error (.fault (.noAttribute "module" name))
        else .error (.fault (.noKey (Text.quoted thing)))
    | _ => .error (.report .notOurs none)

end Callee

def dottedParts : Value → Except Error (List Value) :=
  Value.fold
    (fun k as (parts : Parts (Except Error (List Value))) => do
      let v := Value.node k as
      match k with
      | .name => return [← v.attr "id"]
      | .attributeRef =>
        let attr ← v.attr "attr"
        let _ ← v.attr "value"
        match parts.lookup "value" with
        | some p =>
          if p.value.isKind .attributeRef || p.value.isKind .name then return (← p.result) ++ [attr]
          else .error (.report .notOurs none)
        | none => .error (.report .notOurs none)
      | _ => .error (.report .notOurs none))
    fun _ _ _ => .error (.report .notOurs none)

def dottedName (v : Value) : Except Error String := do
  if !v.isKind .attributeRef then .error (.report .notDotted none)
  else
    let names ← (← dottedParts v).mapM fun
      | .str s => .ok s
      | v => .error (.fault (.wrongCall s!"sequence item 0: expected str instance, {v.typeName} found"))
    return ".".intercalate names

/-- Builds a node from arguments: positional ones fill the fields in order, keywords set
attributes. The older literal nodes are constants; one of them knows its value. -/
def construct (k : Kind) (args : List Value) (keywords : List (String × Value)) :
    Except Error Value := do
  let args := if k == .ellipsis then .ellipsis :: args else args
  let k := if k.isConstant then .constant else k
  let names := k.fieldNames
  if names.length < args.length then .error (.fault (.wrongCall "too many positional arguments"))
  let given := names.take args.length
  if keywords.any (given.contains ·.1) then
    .error (.fault (.wrongCall "multiple values for an argument"))
  let positional := given.zip args
  let named := keywords.map fun (n, v) => (if k == .constant && (n == "n" || n == "s") then "value" else n, v)
  let v := Value.node k (named.foldl (fun as (n, v) => Attrs.set as n v) positional)
  if k.isMarker && !(names.all v.attrs.has && v.attrs.length == names.length) then
    .error (.fault (.wrongCall "missing an argument"))
  return v

def oneArgument (name : String) (args : List Value) (keywords : List (String × Value)) :
    Except Error Value :=
  match args, keywords with
  | [v], [] => .ok v
  | [], [(n, v)] =>
    if n == name then .ok v else .error (.fault (.wrongCall "unexpected keyword argument"))
  | _, _ => .error (.fault (.wrongCall "wrong number of arguments"))

/-- The value frozen into the key of a look-up: a copy of the one that was captured. -/
def thaw (key : Value) : Except Error Value := do
  match ← key.elements with
  | [name, .frozen v] =>
    let _ ← name.asKey
    v.deepCopy
  | [_, v] => .error (.fault (.wrongCall s!"a bytes-like object is required, not '{v.typeName}'"))
  | _ => .error (.fault .unpackMismatch)

/-- The result of a call must be a tree, since it takes over the place of the call. -/
def placeResult (v call : Value) : Except Error Value :=
  if v.isNode || !call.isLocated then .ok (v.copyLocation call)
  else .error (.fault (.noAttribute v.typeName "_attributes"))

def entryOf (pair : Value) : Except Error (Value × Value) := do
  match ← pair.elements with
  | [k, v] => return (← k.asKey, v)
  | _ => .error (.fault .unpackMismatch)

def namedEntry : Value × Value → Except Error (String × Value)
  | (.str s, v) => .ok (s, v)
  | _ => .error (.fault (.wrongCall "keywords must be strings"))

/-- A list of pairs as keywords; the last of equal ones counts. -/
def keywordsOf (pairs : Value) : Except Error (List (String × Value)) := do
  let entries ← (← pairs.elements).mapM entryOf
  (Dictionary.insertAll [] entries).mapM namedEntry

/-- A computation that is run when its value is needed. -/
abbrev Later := Unit → Except Error Value

def laterPart (parts : Parts Later) (v : Value) (name : String) : Except Error Value := do
  let _ ← v.attr name
  match parts.lookup name with
  | some p => p.result ()
  | none => .error (.report (.lowerTree "None") none)

/-- The elements of an attribute, each to be lowered in its turn. -/
def laterItems (parts : Parts Later) (v : Value) (name : String) : Except Error (List Later) := do
  let w ← v.attr name
  match parts.lookup name, w with
  | some p, .list _ | some p, .tuple _ | some p, .set _ | some p, .frozenset _ | some p, .dict _ =>
    return p.items.map (·.result)
  | _, _ => do
    let elements ← w.elements
    return elements.map fun e _ => do .error (.report (.lowerTree (← e.source false)) none)

def loweredItems (parts : Parts Later) (v : Value) (name : String) : Except Error (List Value) := do
  (← laterItems parts v name).mapM (· ())

def callWith (lower : Value → Except Error Value) (callee : Callee) (args : List Value)
    (keywords : List (String × Value)) : Except Error Value :=
  match callee with
  | .build k => construct k args keywords
  | .lift =>
    match args, keywords with
    | [v, _], [] | [v], [("expander", _)] => liftPlain v
    | _, _ => do liftPlain (← oneArgument "x" args keywords)
  | .lower => do lower (← oneArgument "tree" args keywords)
  | .capture =>
    match args, keywords with
    | [v, name], [] | [v], [("name", name)] => .ok (capture v name)
    | [], [("name", name), ("value", v)] | [], [("value", v), ("name", name)] => .ok (capture v name)
    | _, _ => .error (.fault (.wrongCall "wrong number of arguments"))
  | .lookup => do thaw (← oneArgument "key" args keywords)
  | .libraryRef => do
    match ← oneArgument "attr" args keywords with
    | .str s => return libraryRef s
    | v => return attributeOf (attributeOf (nameRef "mcpyrate") "quotes") v.display
  | .plain => .ok .ellipsis
  | .refused => .error (.fault (.wrongCall "object is not callable"))

/-- Lowers a node. `again` is what a call of the lowering itself does. -/
def lowerNode (again : Value → Except Error Value) (k : Kind) (as : Attrs) (parts : Parts Later) :
    Later := fun _ => do
  let v := Value.node k as
  match k with
  | .constant => v.attr "value"
  | .keyword => return .tuple [← v.attr "arg", ← laterPart parts v "value"]
  | .list => return .list (← loweredItems parts v "elts")
  | .tuple => return .tuple (← loweredItems parts v "elts")
  | .dict =>
    v.requireAttrs ["keys", "values"]
    let keys ← laterItems parts v "keys"
    let values ← laterItems parts v "values"
    let entries ← (keys.zip values).mapM fun (key, value) => do
      let key ← key ()
      let value ← value ()
      return (← key.asKey, value)
    return .dict (Dictionary.insertAll [] entries)
  | .set =>
    let elts ← (← laterItems parts v "elts").mapM fun elt => do (← elt ()).asKey
    return .set (Value.distinct elts)
  | .call =>
    let callee ← Callee.ofName (← dottedName (← v.attr "func"))
    let args ← laterPart parts v "args"
    let keywords ← keywordsOf (← laterPart parts v "keywords")
    let args ← args.elements
    placeResult (← callWith again callee args keywords) v
  | _ => .error (.report (.lowerTree (← v.source false)) none)

def lowerRest (v : Value) (items : List (Item Later)) : Later := fun _ =>
  match v with
  | .list _ => do return .list (← items.mapM (·.result ()))
  | v => do .error (.report (.lowerTree (← v.source false)) none)

def lowerWith (again : Value → Except Error Value) (v : Value) : Except Error Value :=
  Value.fold (lowerNode again) (fun v items _ => lowerRest v items) v ()

/-- Lowers code, where calls of the lowering itself go at most `depth` levels deep. -/
def lowerAt : Nat → Value → Except Error Value
  | 0 => lowerWith fun _ => .error (.fault .tooDeep)
  | depth + 1 => lowerWith (lowerAt depth)

def lower (v : Value) : Except Error Value := lowerAt 1000 v

end TreeMacros.Quotation
