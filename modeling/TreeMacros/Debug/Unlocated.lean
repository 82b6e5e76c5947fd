import TreeMacros.Source.Print
import TreeMacros.Tree.Dictionary
import TreeMacros.Tree.Rebuild

/-!
# Finding nodes without a location

The nodes of a tree on which attributes are missing that all of them should have.
-/

namespace TreeMacros.Debug

/-- A node on which attributes are missing. -/
structure Unlocated where
  kind : String
  /-- The start of its source text. -/
  code : String
  missing : List String
  deriving Repr, Inhabited

/-- The first lines of a text; a negative number says how many to leave out at the end. -/
def firstLines (n : Int) (text : String) : String :=
  let lines := text.splitOn "\n"
  let shown := if n < 0 then lines.length - n.natAbs else n.toNat
  "\n".intercalate (lines.take shown) ++ if n < lines.length then "\n..." else ""

def unlocated? (fields : List String) (n : Int) (v : Value) : Option Unlocated :=
  match fields.filter fun f => !(v.attr f).isOk with
  | [] => none
  | missing => some ⟨v.typeName, firstLines n (v.sourceOrExplain false), missing⟩

/-- What is missing on a value itself, and on what is in it. -/
def unlocatedParts (fields : List String) (n : Int) :
    Value → Except Error (Option Unlocated × List Unlocated) :=
  Value.fold
    (fun k as parts => do
      let inner ← (Value.childItems k parts).mapM (·.result)
      return (unlocated? fields n (.node k as), inner.flatMap fun (own, inner) => own.toList ++ inner))
    fun v items _ =>
      match v with
      | .list _ => do
        let inner ← items.mapM (·.result)
        return (none, inner.flatMap fun (own, inner) => own.toList ++ inner)
      | v => do
        let _ ← v.asKey
        .error v.noFields

/-- The nodes of a tree on which attributes are missing, outer ones first. The root is left out if
`inner` is set; it has to be a single value then. -/
def unlocated (fields : List String) (n : Int) (inner : Bool) (v : Value) :
    Except Error (List Unlocated) := do
  if inner then let _ ← v.asKey
  let (own, rest) ← unlocatedParts fields n v
  return if inner then rest else own.toList ++ rest

end TreeMacros.Debug
