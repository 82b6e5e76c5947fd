import TreeMacros.Macro.Program
import TreeMacros.Tree.Location

/-!
# Reports of failed expansions

A failure of a macro is reported with the place of its use. Reports of nested uses are put
together in one, outermost use first, which keeps the cause of the innermost.
-/

namespace TreeMacros

def useSite (location : String) (form : Form) (name : String) : String :=
  s!"{location}\nwhile expanding {form.text} macro invocation for '{name}'"

/-- The first argument of an error that was raised on purpose. -/
def Error.argument? : Error → Option String
  | .report (.scripted _ m) _ => m
  | .report r _ => some r.message
  | .fault _ => none

/-- The report of a failure at the use described by `site`. -/
def Error.atUse (e : Error) (site : String) : Error :=
  match e.kind, e.cause? with
  | .expansionError, some cause =>
    match e.argument?.map (·.toList) with
    | some ('\n' :: rest) => .report (.useSite ("\n" ++ site ++ "\n" ++ String.ofList rest)) (some cause)
    | some (c :: rest) => .report (.useSite ("\n" ++ site ++ "\n" ++ String.ofList (c :: rest))) (some cause)
    | some [] => .fault (.noIndex "string")
    | none => .fault (.noIndex "tuple")
  | _, _ => .report (.useSite site) (some e)

/-- What a macro may give back: nothing, a node, or several nodes. -/
def checkOutput (location : String) (v : Value) : Except Error Value :=
  match v with
  | .none => .ok .none
  | .node k as => .ok (.node k as)
  | v =>
    match v.elements? with
    | some xs =>
      if xs.all (·.isNode) then .ok (.list xs)
      else
        let w := Value.list xs
        .error (.report (.expansionType location w.className w.repr) none)
    | none => .error (.report (.expansionType location v.className v.repr) none)

/-- The report on a lazy macro whose output could not be taken. -/
def unfinishedOutput (location : String) : Error :=
  .report (.expansionType location "<class 'map'>" "<map object at 0xADDR>") none

end TreeMacros
