import TreeMacros.Error
import TreeMacros.Text.Quoted
import TreeMacros.Tree.Kind

/-!
# Values and syntax trees

A syntax tree is a value: attributes of nodes hold nodes, lists of nodes, names and constants,
and a tree under construction may hold anything anywhere. Floating-point and complex numbers are
only ever copied, so they are kept as their written form.

An attribute of a node is *set* when it stands in the node's list. Reading an unset attribute
falls back to the empty value where the grammar says so.
-/

namespace TreeMacros

/-- Constants, containers and nodes. -/
inductive Value where
  | none
  | bool (b : Bool)
  | int (n : Int)
  | float (written : String)
  | complex (written : String)
  | str (s : String)
  | bytes (bs : List UInt8)
  | ellipsis
  | notImplemented
  | list (xs : List Value)
  | tuple (xs : List Value)
  | set (xs : List Value)
  | frozenset (xs : List Value)
  | dict (entries : List (Value × Value))
  | type (name : String)
  | function (name : String)
  /-- A value serialised into a constant. -/
  | frozen (v : Value)
  | node (kind : Kind) (attrs : List (String × Value))
  deriving BEq, Repr, Inhabited

/-- The attributes that are set on a node, each once. -/
abbrev Attrs := List (String × Value)

namespace Attrs

def get? (as : Attrs) (name : String) : Option Value := as.lookup name

def has (as : Attrs) (name : String) : Bool := as.any (·.1 == name)

/-- Sets an attribute: in its place if it is set already, else at the end. -/
def set (as : Attrs) (name : String) (v : Value) : Attrs :=
  match as with
  | [] => [(name, v)]
  | (n, w) :: rest => if n == name then (n, v) :: rest else (n, w) :: set rest name v

def erase (as : Attrs) (name : String) : Attrs := as.filter (·.1 != name)

end Attrs

namespace Value

def typeName : Value → String
  | none => "NoneType"
  | bool _ => "bool"
  | int _ => "int"
  | float _ => "float"
  | complex _ => "complex"
  | str _ => "str"
  | bytes _ => "bytes"
  | ellipsis => "ellipsis"
  | notImplemented => "NotImplementedType"
  | list _ => "list"
  | tuple _ => "tuple"
  | set _ => "set"
  | frozenset _ => "frozenset"
  | dict _ => "dict"
  | type _ => "type"
  | function _ => "function"
  | frozen _ => "bytes"
  | node k _ => k.typeName

def className : Value → String
  | node k _ => "<class '" ++ k.home ++ "." ++ k.typeName ++ "'>"
  | v => "<class '" ++ v.typeName ++ "'>"

def kind? : Value → Option Kind
  | node k _ => some k
  | _ => Option.none

def attrs : Value → Attrs
  | node _ as => as
  | _ => []

def isNode : Value → Bool
  | node .. => true
  | _ => false

def isList : Value → Bool
  | list _ => true
  | _ => false

def isNone : Value → Bool
  | none => true
  | _ => false

def isKind (v : Value) (k : Kind) : Bool := v.kind? == some k

def isMarkerOf (v : Value) (family : Kind) : Bool :=
  match v with
  | node k _ => family.isMarkerOf k
  | _ => false

def writtenZero (written : String) : Bool :=
  let mantissa := written.toList.takeWhile fun c => c != 'e'
  !(mantissa.any fun c => '1' ≤ c && c ≤ '9') && written.toList.any Char.isDigit

/-- Empty values: the empty constant, zeros, empty texts and containers. -/
def isTruthy : Value → Bool
  | none => false
  | bool b => b
  | int n => n != 0
  | float w => !writtenZero w
  | complex w => !writtenZero w
  | str s => s != ""
  | bytes bs => !bs.isEmpty
  | list xs | tuple xs | set xs | frozenset xs => !xs.isEmpty
  | dict es => !es.isEmpty
  | _ => true

/-- The attribute of a node, if it is set or the grammar has a stand-in for it. The older literal
nodes answer to the names of the newer ones and the other way round. -/
def attr? (v : Value) (name : String) : Option Value :=
  match v with
  | node k as =>
    match Attrs.get? as name with
    | some w => some w
    | .none =>
      if k.default? name then some none
      else
        match k, name with
        | .constant, "n" | .constant, "s" => Attrs.get? as "value"
        | .num, "value" => Attrs.get? as "n"
        | .str, "value" | .bytes, "value" => Attrs.get? as "s"
        | _, _ => .none
  | _ => .none

def attr (v : Value) (name : String) : Except Error Value :=
  match v.attr? name with
  | some w => .ok w
  | .none => .error (.fault (.noAttribute v.typeName name))

def requireAttrs (v : Value) : List String → Except Error Unit
  | [] => .ok ()
  | name :: names => do
    let _ ← v.attr name
    v.requireAttrs names

def hasAttr (v : Value) (name : String) : Bool := (v.attr? name).isSome

/-- Sets an attribute of a node; other values are left as they are. -/
def setAttr (v : Value) (name : String) (w : Value) : Value :=
  match v with
  | node k as => node k (Attrs.set as name w)
  | v => v

def elements? : Value → Option (List Value)
  | list xs | tuple xs | set xs | frozenset xs => some xs
  | dict es => some (es.map (·.1))
  | str s => some (s.toList.map fun c => str c.toString)
  | bytes bs => some (bs.map fun b => int b.toNat)
  | _ => Option.none

def elements (v : Value) : Except Error (List Value) :=
  match v.elements? with
  | some xs => .ok xs
  | .none => .error (.fault (.notIterable v.typeName))

def length (v : Value) : Except Error Nat :=
  match v.elements? with
  | some xs => .ok xs.length
  | .none => .error (.fault (.noLength v.typeName))

/-- A field as a walk meets it: what is set, or the empty value if it is optional. -/
def field? (as : Attrs) (f : Field) : Option (String × Value) :=
  match Attrs.get? as f.name with
  | some v => some (f.name, v)
  | .none => if f.optional then some (f.name, none) else .none

def fields : Value → List (String × Value)
  | node k as => k.fields.filterMap (field? as)
  | _ => []

def parenthesised (open_ close : String) (items : List String) : String :=
  open_ ++ ", ".intercalate items ++ close

mutual

/-- The written form of a value. Nodes show their class only. -/
def repr : Value → String
  | none => "None"
  | bool b => if b then "True" else "False"
  | int n => toString n
  | float w => w
  | complex w => w
  | str s => Text.quoted s
  | bytes bs => Text.quotedBytes bs
  | ellipsis => "Ellipsis"
  | notImplemented => "NotImplemented"
  | list xs => parenthesised "[" "]" (reprs xs)
  | tuple [x] => "(" ++ repr x ++ ",)"
  | tuple xs => parenthesised "(" ")" (reprs xs)
  | set [] => "set()"
  | set xs => parenthesised "\x7b" "\x7d" (reprs xs)
  | frozenset [] => "frozenset()"
  | frozenset xs => "frozenset(" ++ parenthesised "\x7b" "\x7d" (reprs xs) ++ ")"
  | dict es => parenthesised "\x7b" "\x7d" (reprEntries es)
  | type name => "<class '" ++ name ++ "'>"
  | function name => "<function " ++ name ++ " at 0xADDR>"
  | frozen v => "b" ++ Text.quoted (repr v)
  | node k _ => "<" ++ k.home ++ "." ++ k.typeName ++ " object at 0xADDR>"

def reprs : List Value → List String
  | [] => []
  | x :: xs => repr x :: reprs xs

def reprEntries : List (Value × Value) → List String
  | [] => []
  | (k, v) :: es => (repr k ++ ": " ++ repr v) :: reprEntries es

end

def display : Value → String
  | str s => s
  | v => v.repr

end Value

end TreeMacros
