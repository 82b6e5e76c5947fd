import TreeMacros.Dialect.Basic
import TreeMacros.Macro.Program

/-!
# Macros and bindings

A macro has a name of its own, says which forms of invocation it takes, and a program for each
call. Bindings give names to macros; a macro can have several.
-/

namespace TreeMacros

/-- Tells macros apart. -/
inductive Identity where
  | builtIn (name : String)
  | made (n : Nat)
  deriving DecidableEq, Repr, Inhabited

/-- How a macro answers a call. A lazy one first looks at the call, and does its work only when
its output is taken. -/
inductive Transformer where
  | eager (run : Call → Program)
  | lazy (start : Call → Except Error Program)

structure Macro where
  identity : Identity
  /-- The name under which calls are noted down. -/
  label : String
  /-- The name it was defined with. -/
  name : String
  /-- The module it was defined in. -/
  home : Option String
  /-- Whether it can be invoked by its bare name. -/
  isName : Bool
  /-- Whether it takes arguments. -/
  isParametric : Bool
  transformer : Transformer

namespace Macro

def fullName (m : Macro) : String :=
  match m.home with
  | some h => if h.isEmpty then m.name else h ++ "." ++ m.name
  | none => m.name

end Macro

/-- What a name is bound to. Anything can be imported in the place of a macro: a dialect, a part of
a package, any value. -/
inductive Binding where
  | transformer (m : Macro)
  | dialect (d : Dialect)
  | part (name : String)
  | plain (v : Value)

namespace Binding

def isTruthy : Binding → Bool
  | plain v => v.isTruthy
  | _ => true

def isName : Binding → Bool
  | transformer m => m.isName
  | _ => false

def isParametric : Binding → Bool
  | transformer m => m.isParametric
  | _ => false

def fullName : Binding → Except Error String
  | transformer m => .ok m.fullName
  | dialect d => .ok (d.home ++ "." ++ d.name)
  | part _ => .error (.fault (.noAttribute "module" "__qualname__"))
  | plain v => .error (.fault (.noAttribute v.typeName "__module__"))

def same : Binding → Binding → Bool
  | transformer m, transformer n => m.identity == n.identity
  | dialect d, dialect e => d.home == e.home && d.name == e.name
  | part m, part n => m == n
  | plain v, plain w => v == w
  | _, _ => false

def repr : Binding → String
  | transformer m => s!"<function {m.name} at 0xADDR>"
  | dialect d => s!"<class '{d.home}.{d.name}'>"
  | part name => s!"<module '{name}'>"
  | plain v => v.repr

def typeName : Binding → String
  | transformer _ => "function"
  | dialect _ => "type"
  | part _ => "module"
  | plain v => v.typeName

end Binding

/-- Names and what they are bound to, oldest first. -/
abbrev Bindings := List (String × Binding)

namespace Bindings

def get? (bs : Bindings) (name : String) : Option Binding := bs.lookup name

/-- Binds a name: in its place if it is bound already, else at the end. -/
def insert (bs : Bindings) (name : String) (b : Binding) : Bindings :=
  match bs with
  | [] => [(name, b)]
  | (n, c) :: rest => if n == name then (n, b) :: rest else (n, c) :: insert rest name b

def erase (bs : Bindings) (name : String) : Bindings := bs.filter (·.1 != name)

def insertAll (bs cs : Bindings) : Bindings := cs.foldl (fun bs (n, b) => insert bs n b) bs

def nameOf? (bs : Bindings) (b : Binding) : Option String := (bs.find? (·.2.same b)).map (·.1)

end Bindings

end TreeMacros
