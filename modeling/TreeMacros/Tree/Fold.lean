import TreeMacros.Tree.Value

/-!
# Folding over trees

Every walk in this library is a fold: the outcome for a node is made of the node itself and the
outcomes for its attributes, and of the elements of those that are containers. `fold_node` and
`fold_list` say how outcomes come about.
-/

namespace TreeMacros

/-- A value with its outcome. -/
structure Item (β : Type) where
  value : Value
  result : β

/-- An attribute with its outcome and those of its elements; a dictionary has outcomes for its keys
and for its values. -/
structure Part (β : Type) where
  value : Value
  result : β
  items : List (Item β)
  entries : List (Item β)

abbrev Parts (β : Type) := List (String × Part β)

namespace Value

section

variable {β : Type} (onNode : Kind → Attrs → Parts β → β)
  (onRest : Value → List (Item β) → List (Item β) → β)

mutual

def foldPart : Value → Part β
  | node k as => ⟨node k as, onNode k as (foldAttrs as), [], []⟩
  | list xs => let is := foldItems xs; ⟨list xs, onRest (list xs) is [], is, []⟩
  | tuple xs => let is := foldItems xs; ⟨tuple xs, onRest (tuple xs) is [], is, []⟩
  | set xs => let is := foldItems xs; ⟨set xs, onRest (set xs) is [], is, []⟩
  | frozenset xs => let is := foldItems xs; ⟨frozenset xs, onRest (frozenset xs) is [], is, []⟩
  | dict es =>
    let ks := foldKeys es
    let vs := foldValues es
    ⟨dict es, onRest (dict es) ks vs, ks, vs⟩
  | v => ⟨v, onRest v [] [], [], []⟩

def foldAttrs : List (String × Value) → Parts β
  | [] => []
  | (name, v) :: rest => (name, foldPart v) :: foldAttrs rest

def foldItems : List Value → List (Item β)
  | [] => []
  | v :: vs => ⟨v, (foldPart v).result⟩ :: foldItems vs

def foldKeys : List (Value × Value) → List (Item β)
  | [] => []
  | (k, _) :: es => ⟨k, (foldPart k).result⟩ :: foldKeys es

def foldValues : List (Value × Value) → List (Item β)
  | [] => []
  | (_, v) :: es => ⟨v, (foldPart v).result⟩ :: foldValues es

end

/-- The outcome for a value. -/
def fold (v : Value) : β := (foldPart onNode onRest v).result

theorem fold_node (k : Kind) (as : Attrs) :
    fold onNode onRest (node k as) = onNode k as (foldAttrs onNode onRest as) := rfl

theorem fold_list (xs : List Value) :
    fold onNode onRest (list xs) = onRest (list xs) (foldItems onNode onRest xs) [] := rfl

theorem foldItems_eq (xs : List Value) :
    foldItems onNode onRest xs = xs.map fun v => ⟨v, fold onNode onRest v⟩ := by
  induction xs with
  | nil => rfl
  | cons v vs ih => simp [foldItems, ih, fold]

theorem foldAttrs_eq (as : Attrs) :
    foldAttrs onNode onRest as = as.map fun (n, v) => (n, foldPart onNode onRest v) := by
  induction as with
  | nil => rfl
  | cons a as ih => obtain ⟨n, v⟩ := a; simp [foldAttrs, ih]

end

end Value

end TreeMacros
