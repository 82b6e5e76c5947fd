import TreeMacros.Tree.Value

/-!
# Labels

Trees are changed where they stand, and several parties can hold on to the same node while that
happens. A label tells nodes apart: what has the same label is the same node, seen at different
times. A list has the label of the node that it was first an attribute of. Labels are attributes
that no grammar knows of, so they are neither visited nor shown.
-/

namespace TreeMacros

/-- A list inside of a tree: the label that comes with its owner, and the attribute it stands in. -/
structure ListLabel where
  owner : Nat
  name : String
  deriving DecidableEq, Repr, Inhabited

namespace Attrs

def labelName : String := "(label)"

/-- The attribute that holds the label of a list, where this is not the one of the node. -/
def listLabelName (name : String) : String := "(" ++ name ++ ")"

/-- Whether an attribute is kept for the library's own use. -/
def isHidden (name : String) : Bool := name.startsWith "("

def label? (as : Attrs) : Option Nat :=
  match get? as labelName with
  | some (.int n) => some n.toNat
  | _ => none

def setLabel (as : Attrs) (n : Nat) : Attrs := set as labelName (.int n)

def listLabel? (as : Attrs) (name : String) : Option ListLabel :=
  match get? as (listLabelName name) with
  | some (.int n) => some ⟨n.toNat, name⟩
  | _ => (label? as).map (⟨·, name⟩)

end Attrs

namespace Value

def label? (v : Value) : Option Nat := Attrs.label? v.attrs

def listLabel? (v : Value) (name : String) : Option ListLabel := Attrs.listLabel? v.attrs name

mutual

/-- Gives a label to each node that has none, counting from the given number. -/
def labelled : Value → StateM Nat Value
  | node k as => do
    let as ← labelledAttrs as
    match Attrs.label? as with
    | some _ => return node k as
    | .none => modifyGet fun n => (node k (Attrs.setLabel as n), n + 1)
  | list xs => do return list (← labelledItems xs)
  | v => pure v

def labelledAttrs : List (String × Value) → StateM Nat (List (String × Value))
  | [] => pure []
  | (name, v) :: rest => do return (name, ← labelled v) :: (← labelledAttrs rest)

def labelledItems : List Value → StateM Nat (List Value)
  | [] => pure []
  | v :: vs => do return (← labelled v) :: (← labelledItems vs)

end

mutual

def unlabelled : Value → Value
  | node k as => node k (unlabelledAttrs as)
  | list xs => list (unlabelledItems xs)
  | v => v

def unlabelledAttrs : List (String × Value) → List (String × Value)
  | [] => []
  | (name, v) :: rest =>
    if Attrs.isHidden name then unlabelledAttrs rest
    else (name, unlabelled v) :: unlabelledAttrs rest

def unlabelledItems : List Value → List Value
  | [] => []
  | v :: vs => unlabelled v :: unlabelledItems vs

end

/-- Another node with the same attributes. It shares the lists of the first one, except for the
list in the attribute `own`. -/
def shallowCopy (v : Value) (own : String) : Value :=
  match v with
  | node k as =>
    node k <| (Attrs.erase as Attrs.labelName).foldr (fun (name, w) rest =>
      match w, Attrs.listLabel? as name with
      | list _, some l =>
        if name == own then (name, w) :: rest
        else (name, w) :: (Attrs.listLabelName name, int l.owner) ::
          Attrs.erase rest (Attrs.listLabelName name)
      | _, _ => (name, w) :: rest) []
  | v => v

/-- The copy of a node with these attributes. Copies of the older literal nodes are constants. -/
def copyNode (k : Kind) (as : Attrs) : Value :=
  match k with
  | .num | .str | .bytes =>
    node .constant (as.map fun (name, v) => (if name == "n" || name == "s" then "value" else name, v))
  | .nameConstant => node .constant as
  | .ellipsis => node .constant (("value", ellipsis) :: as)
  | k => node k as

mutual

/-- A copy of a value down to the leaves. Markers cannot be copied. -/
def deepCopy : Value → Except Error Value
  | node k as =>
    if k.isMarker then .error (.fault (.wrongCall "missing an argument"))
    else do return copyNode k (← deepCopyAttrs as)
  | list xs => do return list (← deepCopyItems xs)
  | tuple xs => do return tuple (← deepCopyItems xs)
  | set xs => do return set (← deepCopyItems xs)
  | frozenset xs => do return frozenset (← deepCopyItems xs)
  | dict es => do return dict (← deepCopyEntries es)
  | v => .ok v

def deepCopyAttrs : List (String × Value) → Except Error (List (String × Value))
  | [] => .ok []
  | (name, v) :: rest => do
    if Attrs.isHidden name then deepCopyAttrs rest
    else return (name, ← deepCopy v) :: (← deepCopyAttrs rest)

def deepCopyItems : List Value → Except Error (List Value)
  | [] => .ok []
  | v :: vs => do return (← deepCopy v) :: (← deepCopyItems vs)

def deepCopyEntries : List (Value × Value) → Except Error (List (Value × Value))
  | [] => .ok []
  | (k, v) :: es => do return (← deepCopy k, ← deepCopy v) :: (← deepCopyEntries es)

end

end Value

end TreeMacros
