import TreeMacros.Tree.Journal

/-!
# What macros do

A macro is called with a tree and gives a tree back. In between it may ask the expander that
called it to visit trees, to quote, to make fresh names and so on. `Program` is the type of all
such conversations: a macro may do whatever it likes with the answers, which include errors, but
it has no other access to the expander.

Visits change trees where they stand. Most macros use only the outcome of a visit; one that keeps
the tree it passed in can ask for its latest form, and sees it changed.
-/

namespace TreeMacros

/-- The four ways to invoke a macro. -/
inductive Form where
  | expr | block | decorator | name
  deriving DecidableEq, Repr, Inhabited

namespace Form

def text : Form → String
  | expr => "expr"
  | block => "block"
  | decorator => "decorator"
  | name => "name"

end Form

/-- What a macro is called with. -/
structure Call where
  form : Form
  tree : Value
  /-- Which list the tree is, if it is a suite that stands somewhere. -/
  suite : Option ListLabel
  /-- The list of arguments; the empty value if the form has none. -/
  args : Value
  /-- What follows `as` in the header of a block. -/
  target : Option Value
  /-- The whole invocation. -/
  invocation : Value
  deriving Inhabited

/-- How far a visit goes: as far as the one under way; one step; or until no macros are left. -/
inductive Extent where
  | current | once | recursive
  deriving DecidableEq, Repr, Inhabited

/-- A name that invokes a macro, and how. -/
structure Invoked where
  name : Value
  form : Form
  deriving Inhabited

/-- What a macro may ask for. -/
inductive Request where
  | visit (extent : Extent) (suite : Option ListLabel) (tree : Value)
  /-- Expand the quotation operators only. -/
  | unquote (suite : Option ListLabel) (tree : Value)
  /-- What a tree that was seen before has become. -/
  | latest (tree : Value)
  /-- Change a tree where it stands. -/
  | edit (act : Act Journal Value)
  /-- Code that builds a value. -/
  | lift (v : Value)
  /-- The macros invoked in a tree. -/
  | collect (tree : Value)
  | fresh (base : Value)
  | quoteLevel
  | stepLevel
  /-- How often this has been asked before by the same macro. -/
  | count
  /-- A text that lists the bindings. -/
  | bindings
  | print (text : String)
  /-- Have the call noted down. -/
  | note (call : Call)

/-- The answer to a request. -/
abbrev Request.Reply : Request → Type
  | visit .. => Value
  | unquote .. => Value
  | latest _ => Value
  | edit _ => Value
  | lift _ => Value
  | collect _ => List Invoked
  | fresh _ => String
  | quoteLevel => Value
  | stepLevel => Value
  | count => Nat
  | bindings => String
  | print _ => Unit
  | note _ => Unit

/-- A section of a program that runs at another level. -/
inductive Scope where
  | quote (delta : Value)
  | step (delta : Value)

/-- The doings of a macro from a call to its end. -/
inductive Program where
  | give (v : Value)
  | fail (e : Error)
  | ask (r : Request) (next : Except Error r.Reply → Program)
  | within (s : Scope) (body : Program) (next : Except Error Value → Program)

namespace Program

def ofExcept {α : Type} (r : Except Error α) (next : α → Program) : Program :=
  match r with
  | .ok a => next a
  | .error e => fail e

def need (r : Request) (next : r.Reply → Program) : Program :=
  ask r fun
    | .ok a => next a
    | .error e => fail e

def inScope (s : Scope) (body : Program) : Program :=
  within s body fun
    | .ok v => give v
    | .error e => fail e

def andThen (p : Program) (next : Value → Program) : Program :=
  match p with
  | give v => next v
  | fail e => fail e
  | ask r k => ask r fun a => (k a).andThen next
  | within s body k => within s body fun a => (k a).andThen next

end Program

end TreeMacros
