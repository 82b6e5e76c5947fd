import TreeMacros.Tree.Rebuild

/-!
# Markers

Finding and removing the markers of a family in a tree.
-/

namespace TreeMacros.Value

def markers (family : Kind) : Value → Except Error (List Value) :=
  fold
    (fun k as parts => do
      let inner ← (childItems k parts).mapM (·.result)
      return (if family.isMarkerOf k then [node k as] else []) ++ inner.flatten)
    fun v items _ =>
      match v with
      | list _ => do return (← items.mapM (·.result)).flatten
      | v => .error v.noFields

/-- The two ways to come to a node while markers are deleted: to visit it, and to go on from a
marker to what it holds. -/
structure Unmarking (m : Type → Type) where
  visit : m Value
  descend : m Value

section

variable {m : Type → Type} [Monad m] [MonadExceptOf Error m] [Editing m]

def unmarkNode (family k : Kind) (as : Attrs) (parts : Parts (Unmarking m)) : Unmarking m :=
  let descend := rebuild (fun _ i => i.result.visit) k as parts
  let visit :=
    if family.isMarkerOf k then
      match parts.lookup "body" with
      | some p => p.result.descend
      | .none => throw (.fault (.noAttribute k.typeName "body"))
    else descend
  ⟨visit, descend⟩

def unmarkRest (v : Value) (items : List (Item (Unmarking m))) : Unmarking m :=
  match v with
  | list _ => ⟨do return suite (← items.mapM (·.result.visit)), throw v.noFields⟩
  | v => ⟨throw v.noFields, throw v.noFields⟩

def unmarking (family : Kind) : Value → Unmarking m :=
  fold (unmarkNode family) fun v items _ => unmarkRest v items

/-- Replaces each marker of a family by what it holds. A marker held by a marker stays. -/
def deleteMarkers (family : Kind) (v : Value) : m Value := (unmarking family v).visit

end

end TreeMacros.Value
