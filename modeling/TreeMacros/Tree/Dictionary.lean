import TreeMacros.Tree.Equality

/-!
# Dictionaries

Dictionaries keep the order in which keys were first set. A key that is equal to one already
there stands for it.
-/

namespace TreeMacros

/-- The entries of a dictionary, oldest first. -/
abbrev Dictionary := List (Value × Value)

namespace Dictionary

def find? : Dictionary → Value → Option Value
  | [], _ => none
  | (k, v) :: es, key => if k.same key then some v else find? es key

def contains (es : Dictionary) (key : Value) : Bool := (es.find? key).isSome

/-- Sets a key: in its place if it is there, else at the end. -/
def insert : Dictionary → Value → Value → Dictionary
  | [], key, v => [(key, v)]
  | (k, w) :: es, key, v => if k.same key then (k, v) :: es else (k, w) :: insert es key v

def erase : Dictionary → Value → Dictionary
  | [], _ => []
  | (k, w) :: es, key => if k.same key then es else (k, w) :: erase es key

def insertAll (es fs : Dictionary) : Dictionary := fs.foldl (fun es (k, v) => es.insert k v) es

def keys (es : Dictionary) : List Value := es.map (·.1)

def values (es : Dictionary) : List Value := es.map (·.2)

end Dictionary

namespace Value

/-- Containers that can change cannot be keys. -/
def asKey (v : Value) : Except Error Value :=
  if v.isHashable then .ok v else .error (.fault (.unhashable v.typeName))

def firstElement (v : Value) : Except Error Value :=
  match v with
  | set _ | frozenset _ =>
    .error (.fault (.wrongCall s!"'{v.typeName}' object is not subscriptable"))
  | dict es =>
    match Dictionary.find? es (int 0) with
    | some w => .ok w
    | .none => .error (.fault (.noKey "0"))
  | v => do
    match ← v.elements with
    | x :: _ => return x
    | [] => .error (.fault (.noIndex v.typeName))

def distinct (vs : List Value) : List Value :=
  vs.foldl (fun seen v => if seen.any (·.same v) then seen else seen ++ [v]) []

end Value

end TreeMacros
