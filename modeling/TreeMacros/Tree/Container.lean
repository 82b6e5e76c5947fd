import TreeMacros.Tree.Dictionary

/-!
# Containers

Dictionaries are read by keys, sequences by positions, which count from the end if they are
negative. Only dictionaries and lists can be changed in this way.
-/

namespace TreeMacros.Value

/-- The position in a sequence of `size` elements that a value stands for. -/
def position (owner : String) (size : Nat) (v : Value) : Except Error Nat :=
  match v.toInt? with
  | .none => .error (.fault (.wrongCall s!"{owner} indices must be integers, not {v.typeName}"))
  | some i =>
    let j := if i < 0 then i + size else i
    if 0 ≤ j && j < size then .ok j.toNat else .error (.fault (.noIndex owner))

def item (v key : Value) : Except Error Value :=
  match v with
  | dict es => do
    match Dictionary.find? es (← key.asKey) with
    | some w => return w
    | .none => .error (.fault (.noKey key.repr))
  | list _ | tuple _ | str _ | bytes _ => do
    let xs ← v.elements
    return xs.getD (← position v.typeName xs.length key) none
  | v => .error (.fault (.noAttribute v.typeName "__getitem__"))

/-- The container with another element for a key or at a position. -/
def setItem (v key w : Value) : Except Error Value :=
  match v with
  | dict es => do return dict (Dictionary.insert es (← key.asKey) w)
  | list xs => do return list (xs.set (← position "list" xs.length key) w)
  | v => .error (.fault (.noAttribute v.typeName "__setitem__"))

/-- The container without the element for a key or at a position. -/
def eraseItem (v key : Value) : Except Error Value :=
  match v with
  | dict es => do
    let _ ← v.item key
    return dict (Dictionary.erase es key)
  | list xs => do return list (xs.eraseIdx (← position "list" xs.length key))
  | v => .error (.fault (.noAttribute v.typeName "__delitem__"))

def occursIn {α : Type} [BEq α] (part : List α) : List α → Bool
  | [] => part.isEmpty
  | c :: cs => part.isPrefixOf (c :: cs) || occursIn part cs

def hasItem (v key : Value) : Except Error Bool :=
  match v with
  | dict es => do return Dictionary.contains es (← key.asKey)
  | list xs | tuple xs => .ok (xs.any (·.same key))
  | set xs | frozenset xs =>
    match key with
    | set _ => .ok (xs.any (·.same key))
    | key => do
      let key ← key.asKey
      return xs.any (·.same key)
  | str s =>
    match key with
    | str t => .ok (occursIn t.toList s.toList)
    | key => .error (.fault (.wrongCall
        s!"'in <string>' requires string as left operand, not {key.typeName}"))
  | bytes bs =>
    match key, key.toInt? with
    | bytes cs, _ => .ok (occursIn cs bs)
    | _, some n =>
      if 0 ≤ n && n < 256 then .ok (bs.any (·.toNat == n.toNat))
      else .error (.fault (.outside .valueError "byte must be in range(0, 256)"))
    | key, _ => .error (.fault (.wrongCall
        s!"a bytes-like object is required, not '{key.typeName}'"))
  | v => .error (.fault (.noAttribute v.typeName "__contains__"))

def cleared : Value → Except Error Value
  | dict _ => .ok (dict [])
  | list _ => .ok (list [])
  | set _ => .ok (set [])
  | v => .error (.fault (.noAttribute v.typeName "clear"))

end TreeMacros.Value
