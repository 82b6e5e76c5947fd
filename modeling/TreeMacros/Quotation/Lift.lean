import TreeMacros.Quotation.Code
import TreeMacros.Source.Print

/-!
# Lifting values into code

Lifting turns a value into code that builds the value. A tree becomes calls that build its nodes;
subtrees marked as literal are code already and stay as they are; what is marked for capture
becomes a call that captures it, or the name of a globally bound macro.
-/

namespace TreeMacros.Quotation

section

variable {m : Type → Type} [Monad m] [MonadExceptOf Error m]

def liftExcept {α : Type} (r : Except Error α) : m α :=
  match r with
  | .ok a => pure a
  | .error e => throw e

/-- The call that builds a node with these fields; it stands where the node stands. -/
def buildCall (v : Value) (fields : List (String × Value)) : Value :=
  (callOf (classRef v.typeName) [] (fields.map fun (name, code) => keywordOf name code)).copyLocation v

def boundName (name : String) : Value :=
  buildCall (.node .name [("id", .str name)]) [("id", constantOf (.str name))]

/-- The call that captures a value at the place where the quote is used. -/
def captureCall (body name : Value) : Value :=
  callOf (libraryRef "capture") [body, constantOf name] []

/-- Lifts the fields of a node, in the order of the grammar. -/
def liftFields (parts : Parts (m Value)) : List Field → m (List (String × Value))
  | [] => pure []
  | f :: fs => do
    match parts.lookup f.name with
    | some p =>
      let code ← p.result
      return (f.name, code) :: (← liftFields parts fs)
    | none =>
      if f.optional then return (f.name, constantOf .none) :: (← liftFields parts fs)
      else liftFields parts fs

/-- Lifts a value. `captured` gives the global name of a name that is bound to a macro, if it is. -/
def lift (captured : Value → m (Option String)) : Value → m Value :=
  Value.fold
    (fun k as (parts : Parts (m Value)) => do
      let v := Value.node k as
      if k == .literal then liftExcept (v.attr "body")
      else if k == .captureLater then
        let body ← liftExcept (v.attr "body")
        let found ← if body.isKind .name then captured body else pure none
        match found with
        | some name => return boundName name
        | none => return captureCall body (← liftExcept (v.attr "name"))
      else if k.isMarker then
        throw (.report (.liftMarker (← liftExcept (v.source false))) none)
      else return buildCall v (← liftFields parts k.fields))
    fun v items entries =>
      match v with
      | .none | .bool _ | .int _ | .float _ | .str _ | .bytes _ | .frozen _ => pure (constantOf v)
      | .list _ => do return .node .list [("elts", .list (← items.mapM (·.result)))]
      | .tuple _ => do return .node .tuple [("elts", .list (← items.mapM (·.result)))]
      | .set _ => do return .node .set [("elts", .list (← items.mapM (·.result)))]
      | .dict _ => do
        let keys ← items.mapM (·.result)
        let values ← entries.mapM (·.result)
        return .node .dict [("keys", .list keys), ("values", .list values)]
      | v => throw (.report (.liftValue v.repr) none)

end

def liftPlain (v : Value) : Except Error Value := lift (fun _ => pure none) v

/-- The code that looks a captured value up. The value is frozen into the code. -/
def capture (v : Value) (name : Value) : Value :=
  callOf (libraryRef "lookup")
    [.node .tuple [("elts", .list [constantOf name, constantOf (.frozen v)])]] []

end TreeMacros.Quotation
