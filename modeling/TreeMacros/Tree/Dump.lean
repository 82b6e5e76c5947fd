import TreeMacros.Tree.Value

/-!
# Constructor dumps

A dump shows a tree as the calls that would build it. On one line the arguments are separated by
a comma and a space; on several lines each argument starts below the first one.
-/

namespace TreeMacros

structure DumpStyle where
  locations : Bool
  multiline : Bool
  deriving DecidableEq, Repr

namespace DumpStyle

def separator (st : DumpStyle) (column : Nat) : String :=
  if st.multiline then ",\n" ++ String.ofList (List.replicate column ' ') else ", "

end DumpStyle

namespace Value

/-- A value that can be dumped at any column. -/
abbrev Dumped := Nat → String

/-- The call that builds a node, given the dumps of the attributes that are set. -/
def dumpCall (st : DumpStyle) (k : Kind) (parts : List (String × Dumped)) (column : Nat) : String :=
  let inner := column + k.typeName.length + 1
  let names := (k.fields.filter fun f => f.optional || (parts.lookup f.name).isSome).map (·.name) ++
    if st.locations && k.located then Kind.locationNames else []
  let shown (name : String) :=
    name ++ "=" ++ (parts.lookup name).getD (fun _ => "None") (inner + name.length + 1)
  k.typeName ++ "(" ++ (st.separator inner).intercalate (names.map shown) ++ ")"

def dumpItems (st : DumpStyle) (items : List String) (column : Nat) : String :=
  match items with
  | [] => "[]"
  | first :: rest =>
    (st.separator (column + 1)).intercalate (("[" ++ Text.stripStart first) :: rest) ++ "]"

mutual

def dumpAt (st : DumpStyle) : Value → Nat → String
  | node k as, column => dumpCall st k (dumpAttrs st as) column
  | list xs, column => dumpItems st (dumpList st xs (column + 1)) column
  | v, _ => v.repr

def dumpAttrs (st : DumpStyle) : List (String × Value) → List (String × Dumped)
  | [] => []
  | (name, v) :: rest => (name, fun column => dumpAt st v column) :: dumpAttrs st rest

def dumpList (st : DumpStyle) : List Value → Nat → List String
  | [], _ => []
  | v :: vs, column => dumpAt st v column :: dumpList st vs column

end

def dump (st : DumpStyle) (v : Value) : Except Error String :=
  if v.isNode || v.isList then .ok (v.dumpAt st 0)
  else .error (.report (.dumpOfValue (Text.quoted v.typeName)) .none)

end Value

end TreeMacros
