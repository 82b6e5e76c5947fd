import TreeMacros.Tree.Container

/-!
# Records

Named values that answer both to attributes and to keys. The names of a record's own
operations are reserved: they can be keys, but not be assigned as attributes. The two attributes
that hold a record's insides can be assigned.
-/

namespace TreeMacros

/-- A record: its values, and the names that cannot be assigned as attributes. -/
structure Record where
  data : Value
  reserved : Value
  deriving Repr, Inhabited

namespace Record

def reservedNames : List String :=
  ["__class__", "__contains__", "__delattr__", "__delitem__", "__dict__", "__dir__", "__doc__",
   "__eq__", "__format__", "__ge__", "__getattr__", "__getattribute__", "__getitem__",
   "__getstate__", "__gt__", "__hash__", "__init__", "__init_subclass__", "__iter__", "__le__",
   "__len__", "__lt__", "__module__", "__ne__", "__new__", "__reduce__", "__reduce_ex__",
   "__repr__", "__setattr__", "__setitem__", "__sizeof__", "__str__", "__subclasshook__",
   "__weakref__", "_data", "_reserved_names", "clear", "copy", "get", "items", "keys", "pop",
   "popitem", "setdefault", "update", "values"]

def ofEntries (es : Dictionary) : Record := ⟨.dict es, .list (reservedNames.map .str)⟩

/-- Names given as keywords must be texts, and not the name of the record itself. -/
def keywords (es : Dictionary) : Except Error Dictionary :=
  if es.all fun (k, _) => match k with | .str s => s != "self" | _ => false then .ok es
  else .error (.fault (.wrongCall "keywords must be strings"))

def make (es : Dictionary) : Except Error Record := do return ofEntries (← keywords es)

/-- The values, for the operations that the record hands on to its insides. They may have been
replaced by something that has no such operations. -/
def entries (r : Record) : Except Error Dictionary :=
  match r.data with
  | .dict es => .ok es
  | v => .error (.fault (.noAttribute v.typeName "items"))

def slots (r : Record) : Except Error Dictionary :=
  match r.data with
  | .dict es => .ok es
  | v => .error (.fault (.wrongCall s!"'{v.typeName}' object does not take names as keys"))

def size (r : Record) : Except Error Nat := r.data.length

def names (r : Record) : Except Error (List Value) :=
  match r.data.elements? with
  | some xs => .ok xs
  | none => .error (.fault (.noAttribute r.data.typeName "__iter__"))

def setEntries (r : Record) (es : Dictionary) : Record := { r with data := .dict es }

def isEmpty (r : Record) : Bool := !r.data.isTruthy

def get (r : Record) (key : Value) : Except Error Value := r.data.item key

def contains (r : Record) (key : Value) : Except Error Bool := r.data.hasItem key

/-- The value of a key, or something else if there is none. -/
def getD (r : Record) (key default : Value) : Except Error Value := do
  if ← r.contains key then r.get key else return default

def set (r : Record) (key v : Value) : Except Error Record := do
  return { r with data := ← r.data.setItem key v }

def erase (r : Record) (key : Value) : Except Error Record := do
  return { r with data := ← r.data.eraseItem key }

def operations : List String :=
  ["clear", "copy", "get", "items", "keys", "pop", "popitem", "setdefault", "update", "values"]

/-- Reads an attribute. The insides and the operations come before the values. -/
def attr (r : Record) (name : String) : Except Error Value :=
  match name with
  | "_data" => .ok r.data
  | "_reserved_names" => .ok r.reserved
  | _ => do
    if operations.contains name then return .function name
    match (← r.slots).find? (.str name) with
    | some v => return v
    | none => .error (.fault (.noKey (Text.quoted name)))

/-- Removes an attribute, which is always one of the values. -/
def eraseAttr (r : Record) (name : String) : Except Error Record := do
  let es ← r.slots
  if es.contains (.str name) then return r.setEntries (es.erase (.str name))
  else .error (.fault (.noKey (Text.quoted name)))

def isReserved (r : Record) (name : String) : Except Error Bool :=
  match r.reserved with
  | .str s => .ok (Value.occursIn name.toList s.toList)
  | .bytes _ => .error (.fault (.wrongCall "a bytes-like object is required, not 'str'"))
  | v =>
    match v.elements? with
    | some xs => .ok (xs.any (·.same (.str name)))
    | none => .error (.fault (.wrongCall s!"argument of type '{v.typeName}' is not iterable"))

def setAttr (r : Record) (name : String) (v : Value) : Except Error Record :=
  match name with
  | "_data" => .ok { r with data := v }
  | "_reserved_names" => .ok { r with reserved := v }
  | _ => do
    if ← r.isReserved name then .error (.report (.reservedName name) none)
    else return r.setEntries ((← r.slots).insert (.str name) v)

/-- Removes a key and gives its value, or the default if there is none. Where there are no values
at all, anything goes for a key. -/
def pop (r : Record) (key : Value) (default : Option Value) : Except Error (Value × Record) :=
  match r.data with
  | .dict es => do
    let key ← if es.isEmpty then pure key else key.asKey
    match Dictionary.find? es key, default with
    | some v, _ => return (v, r.setEntries (Dictionary.erase es key))
    | none, some d => return (d, r)
    | none, none => .error (.fault (.noKey key.repr))
  | .list xs => do
    if default.isSome then .error (.fault (.wrongCall "pop expected at most 1 argument, got 2"))
    let i ← key.position "list" xs.length
    return (xs.getD i .none, { r with data := .list (xs.eraseIdx i) })
  | .set _ => .error (.fault (.wrongCall "set.pop() takes no arguments"))
  | v => .error (.fault (.noAttribute v.typeName "pop"))

def popLast (r : Record) : Except Error (Value × Record) := do
  let es ← r.entries
  match es.getLast? with
  | some (k, v) => return (.tuple [k, v], r.setEntries es.dropLast)
  | none => .error (.fault .emptyPop)

/-- The value of a key, which is set to the default if it is not there. -/
def setDefault (r : Record) (key default : Value) : Except Error (Value × Record) := do
  match (← r.entries).find? (← key.asKey) with
  | some v => return (v, r)
  | none => return (default, r.setEntries ((← r.entries).insert key default))

def update (r : Record) (es : Dictionary) : Except Error Record := do
  let es ← keywords es
  match r.data with
  | .set _ =>
    if es.isEmpty then return r
    else .error (.fault (.wrongCall "set.update() takes no keyword arguments"))
  | _ => return r.setEntries ((← r.entries).insertAll es)

def clear (r : Record) : Except Error Record := do return { r with data := ← r.data.cleared }

def copy (r : Record) : Except Error Record := do make (← r.entries)

def same (r : Record) (v : Value) : Bool := v.same r.data

/-- A name in the written form of a record has to be text. -/
def shownName (key : Value) : Except Error String :=
  match key with
  | .str s => .ok s
  | .int _ | .bool _ | .float _ | .complex _ => .error (.fault (.noIntegerFormat key.typeName))
  | v => .error (.fault (.noFormat v.typeName))

def repr (r : Record) : Except Error String := do
  let parts ← (← r.entries).mapM fun (k, v) => do return (← shownName k) ++ "=" ++ v.repr
  return "Bunch(" ++ ", ".intercalate parts ++ ")"

end Record

end TreeMacros
