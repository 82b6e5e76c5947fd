import TreeMacros.Tree.Equality
import TreeMacros.Tree.Rebuild

/-!
# Renaming

Names occur in a tree as identifiers, attributes, names of functions and classes, parameters,
keywords, imported names and their local names, and names of caught exceptions.
-/

namespace TreeMacros.Value

def nameFields : Kind → List String
  | .name => ["id"]
  | .attributeRef => ["attr"]
  | .functionDef | .asyncFunctionDef | .classDef => ["name"]
  | .arg | .keyword => ["arg"]
  | .importAlias => ["name", "asname"]
  | .exceptHandler => ["name"]
  | _ => []

section

variable {m : Type → Type} [Monad m] [MonadExceptOf Error m] [Editing m]

def renameAttr (old new : Value) (k : Kind) (as : Attrs) (name : String) : m Attrs :=
  match (node k as).attr name with
  | .ok v => if v.same old then Editing.assign as name new else pure as
  | .error e => throw e

def renameAttrs (old new : Value) (k : Kind) (as : Attrs) : m Attrs :=
  (nameFields k).foldlM (renameAttr old new k) as

def rename (old new : Value) : Value → m Value :=
  fold
    (fun k as (parts : Parts (m Value)) => do
      rebuild (fun _ (i : Item (m Value)) => i.result) k (← renameAttrs old new k as) parts)
    fun v items _ =>
      match v with
      | list _ => do return suite (← items.mapM (·.result))
      | v => throw v.noFields

end

end TreeMacros.Value
