import TreeMacros.Level
import TreeMacros.Walk.Basic

/-!
# Walkers made of rules

A rule says which nodes it is for and what to do with them, step by step. The first rule that
applies is followed; unless it says otherwise, the children are visited afterwards.
-/

namespace TreeMacros.Walk

inductive Step where
  | collectState
  | collectField (name : String)
  | withState (name : String) (changes : Dictionary)
  | setState (key : String) (v : Value)
  | increase (key : String) (amount : Value)
  | newState (entries : Dictionary)
  | setField (name : String) (v : Value)
  | visit (name : String)
  | stop
  | replace (v : Value)

structure Rule where
  /-- The type of values the rule is for; any if there is none. -/
  type : Option String
  conditions : List (String × Value)
  steps : List Step

namespace Rule

def applies (r : Rule) (v : Value) : Bool :=
  (r.type.all (· == v.typeName)) &&
    r.conditions.all fun (name, w) => ((v.attr? name).getD .none).same w

end Rule

open Program (need)

/-- Sets an attribute; only nodes have any. -/
def setField (v : Value) (name : String) (w : Value) : Program Value :=
  if v.isNode then v.assign name w
  else throw (.fault (.noAttribute v.typeName name))

/-- Follows the steps of a rule: the value afterwards, and whether it is final. -/
def follow (v : Value) : List Step → Program (Value × Bool)
  | [] => return (v, false)
  | s :: steps => do
    match s with
    | .collectState =>
      let r ← need .state
      need (.collect ⟨.list [.str v.typeName, r.data], none⟩)
      follow v steps
    | .collectField name =>
      need (.collect ⟨← v.attr name, v.listLabel? name⟩)
      follow v steps
    | .withState "" changes =>
      let v ← need (.withState v changes)
      follow v steps
    | .withState name changes =>
      let child ← need (.withState (← v.attr name) changes)
      follow (if v.attrs.has name then v.setAttr name child else v) steps
    | .setState key w =>
      need (.edit (·.setAttr key w))
      follow v steps
    | .increase key amount =>
      need (.edit fun r => do r.set (.str key) (← (← r.get (.str key)).plus amount))
      follow v steps
    | .newState entries =>
      need (.replace (← Record.make entries))
      follow v steps
    | .setField name w =>
      let v ← Walk.setField v name w
      follow v steps
    | .visit name =>
      let before ← v.attr name
      let v ← match before, ← need (.visit before) with
        | .list _, .list xs => v.refill name xs
        | _, w => Walk.setField v name w
      follow v steps
    | .stop => return (v, true)
    | .replace w => return (w, true)

def ofRules (rules : List Rule) : Walker := fun v => do
  match rules.find? (·.applies v) with
  | some r =>
    let (v, final) ← follow v r.steps
    if final then return v else v.descend fun u => need (.visit u)
  | none => v.descend fun u => need (.visit u)

end TreeMacros.Walk
