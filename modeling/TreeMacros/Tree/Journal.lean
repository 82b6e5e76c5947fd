import TreeMacros.Action
import TreeMacros.Tree.Label

/-!
# Changes to trees

A pass over a tree yields the tree as it is afterwards. Those who have seen the tree before, and
still hold on to it, look up in a journal what it has become: each change of a labelled node is
noted down there, also if the pass fails later on. `Editing` is what a pass needs in order to
change a tree; where no one else holds on to the tree, a change is nothing but its outcome.
-/

namespace TreeMacros

inductive Change where
  /-- An attribute of a node has got a value, or has been unset. -/
  | assigned (node : Nat) (name : String) (v : Option Value)
  /-- A list has got other elements. -/
  | refilled (label : ListLabel) (xs : List Value)
  deriving Inhabited

structure Journal where
  /-- The first label that is not in use. -/
  next : Nat
  /-- The changes so far, the last one first. -/
  changes : List Change
  deriving Inhabited

namespace Journal

def empty : Journal := ⟨0, []⟩

def note (j : Journal) (c : Change) : Journal := { j with changes := c :: j.changes }

def label (j : Journal) (v : Value) : Value × Journal :=
  let (v, next) := v.labelled j.next
  (v, { j with next })

def applyTo (as : Attrs) (n : Nat) : Change → Attrs
  | .assigned m name v =>
    if m == n then
      match v with
      | some v => Attrs.set as name v
      | none => Attrs.erase as name
    else as
  | .refilled .. => as

def attrsNow (j : Journal) (as : Attrs) : Attrs :=
  match Attrs.label? as with
  | some n => j.changes.foldr (fun c as => applyTo as n c) as
  | none => as

def itemsNow (j : Journal) (l : ListLabel) (xs : List Value) : List Value :=
  (j.changes.findSome? fun
    | .refilled m ys => if m == l then some ys else none
    | .assigned .. => none).getD xs

def latestTo (j : Journal) : Nat → Value → Value
  | 0, v => v
  | depth + 1, .node k as =>
    let as := j.attrsNow as
    .node k <| as.map fun (name, v) =>
      match v, Attrs.listLabel? as name with
      | .list xs, some l => (name, .list ((j.itemsNow l xs).map (latestTo j depth)))
      | v, _ => (name, latestTo j depth v)
  | depth + 1, .list xs => .list (xs.map (latestTo j depth))
  | _, v => v

def limit : Nat := 1000

def latest (j : Journal) (v : Value) : Value := if j.changes.isEmpty then v else j.latestTo limit v

end Journal

/-- The ways to change a node. -/
class Editing (m : Type → Type) where
  /-- Gives a value to an attribute. -/
  assign : Attrs → String → Value → m Attrs
  unset : Attrs → String → m Attrs
  /-- Gives other elements to the list that an attribute holds. -/
  refill : Attrs → String → List Value → m Attrs

/-- Changes to a tree that no one else holds on to. -/
instance : Editing (Except Error) where
  assign as name v := .ok (Attrs.set as name v)
  unset as name := .ok (Attrs.erase as name)
  refill as name xs := .ok (Attrs.set as name (.list xs))

instance {σ : Type} {m : Type → Type} [Monad m] [Editing m] : Editing (StateT σ m) where
  assign as name v := StateT.lift (Editing.assign as name v)
  unset as name := StateT.lift (Editing.unset as name)
  refill as name xs := StateT.lift (Editing.refill as name xs)

/-- A state that has a journal. -/
class HasJournal (σ : Type) where
  journal : σ → Journal
  setJournal : σ → Journal → σ

instance : HasJournal Journal := ⟨id, fun _ j => j⟩

namespace Act

variable {σ : Type} [HasJournal σ]

def onJournal {α : Type} (act : Act Journal α) : Act σ α := fun s =>
  let (r, j) := act (HasJournal.journal s)
  (r, HasJournal.setJournal s j)

def note (c : Change) : Act σ Unit :=
  modify fun s => HasJournal.setJournal s ((HasJournal.journal s).note c)

def label (v : Value) : Act σ Value :=
  modifyGet fun s =>
    let (v, j) := (HasJournal.journal s).label v
    (v, HasJournal.setJournal s j)

def latest (v : Value) : Act σ Value := do return (HasJournal.journal (← get)).latest v

/-- Gives labels to what has come into a tree. What has a label has been there before. -/
def welcome (v : Value) : Act σ Value :=
  match v.label? with
  | some _ => pure v
  | none => label v

/-- Notes the value of an attribute, unless the attribute holds the same node as before. -/
def assign (as : Attrs) (name : String) (v : Value) : Act σ Attrs :=
  match Attrs.label? as with
  | none => return Attrs.set as name v
  | some n => do
    let v ← welcome v
    let before := (Attrs.get? as name).bind (·.label?)
    let as := Attrs.set as name v
    match v with
    | .list _ =>
      let own ← modifyGet fun s =>
        let j := HasJournal.journal s
        (j.next, HasJournal.setJournal s { j with next := j.next + 1 })
      note (.assigned n name (some v))
      note (.assigned n (Attrs.listLabelName name) (some (.int own)))
      return Attrs.set as (Attrs.listLabelName name) (.int own)
    | v =>
      if v.label?.isNone || v.label? != before then note (.assigned n name (some v))
      return as

def unset (as : Attrs) (name : String) : Act σ Attrs := do
  match Attrs.label? as with
  | none => pure ()
  | some n => note (.assigned n name none)
  return Attrs.erase as name

/-- Notes the elements of a list, unless they are the same nodes as before. -/
def refill (as : Attrs) (name : String) (xs : List Value) : Act σ Attrs :=
  match Attrs.listLabel? as name with
  | none => return Attrs.set as name (.list xs)
  | some l => do
    let xs ← xs.mapM welcome
    let before := match Attrs.get? as name with
      | some (.list ys) => ys
      | _ => []
    if xs.map (·.label?) != before.map (·.label?) then note (.refilled l xs)
    return Attrs.set as name (.list xs)

instance : Editing (Act σ) where
  assign := assign
  unset := unset
  refill := refill

end Act

namespace Value

variable {m : Type → Type} [Monad m] [Editing m]

/-- Gives a value to an attribute of a node; other values are left as they are. -/
def assign (v : Value) (name : String) (w : Value) : m Value :=
  match v with
  | node k as => do return node k (← Editing.assign as name w)
  | v => pure v

/-- Gives other elements to a list or a set that a node holds. -/
def refill (v : Value) (name : String) (xs : List Value) : m Value :=
  match v with
  | node k as => do
    match Attrs.get? as name with
    | some (set _) => return node k (← Editing.assign as name (set xs))
    | _ => return node k (← Editing.refill as name xs)
  | v => pure v

end Value

end TreeMacros
