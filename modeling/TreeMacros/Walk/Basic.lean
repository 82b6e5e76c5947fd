import TreeMacros.Record
import TreeMacros.Tree.Rebuild

/-!
# Walking with a state

A walker goes through a tree with a state at hand, which it may change, and collects values on the
way. A subtree can be given a state of its own: a copy of the current one with some changes, which
is in force while the subtree is visited. The elements of a suite share one such state.

What a walker does with a node is a `Program`: a conversation with the walk, in which it asks for
the state, for visits to other values and so on. It may do whatever it likes with the answers,
which include errors.
-/

namespace TreeMacros

/-- A collected value. A list that stands in a tree can be told from others. -/
structure Collected where
  value : Value
  suite : Option ListLabel
  deriving Inhabited

/-- A walk under way. States are numbered in the order in which they were made. -/
structure Walk where
  /-- What has been changed in the trees that were visited. -/
  journal : Journal
  states : List Record
  /-- The states in force, the current one first. -/
  stack : List Nat
  stack_lt : ∀ n ∈ stack, n < states.length
  /-- States waiting for values that are not nodes. -/
  waiting : List (Value × Nat)
  collected : List Collected
  /-- What the walker keeps for itself. -/
  memory : Value

instance : HasJournal Walk := ⟨Walk.journal, fun w journal => { w with journal }⟩

namespace Walk

abbrev M := Act Walk

def start (state : Record) : Walk where
  journal := .empty
  states := [state]
  stack := [0]
  stack_lt := by simp
  waiting := []
  collected := []
  memory := .none

instance : Inhabited Walk := ⟨start default⟩

def record (w : Walk) (n : Nat) : Record := (w.states[n]?).getD (Record.ofEntries [])

def current (w : Walk) : Nat := w.stack.head?.getD 0

def state (w : Walk) : Record := w.record w.current

def depth (w : Walk) : Nat := w.stack.length

def collectedNow (w : Walk) : List Value :=
  w.collected.map fun c =>
    match c.value, c.suite with
    | .list xs, some l => w.journal.latest (.list (w.journal.itemsNow l xs))
    | v, _ => w.journal.latest v

/-! ## States -/

def setState (w : Walk) (n : Nat) (r : Record) : Walk :=
  { w with
    states := w.states.set n r
    stack_lt := by simpa using w.stack_lt }

def addState (w : Walk) (r : Record) : Walk :=
  { w with
    states := w.states ++ [r]
    stack_lt := fun n hn => by
      have := w.stack_lt n hn
      rw [List.length_append]
      omega }

def push (w : Walk) (n : Nat) (h : n < w.states.length) : Walk :=
  { w with
    stack := n :: w.stack
    stack_lt := fun m hm => by
      rcases List.mem_cons.mp hm with rfl | hm
      · exact h
      · exact w.stack_lt m hm }

def pop (w : Walk) : Walk :=
  { w with
    stack := w.stack.tail
    stack_lt := fun m hm => w.stack_lt m (List.mem_of_mem_tail hm) }

def currentNumber : M Nat := do
  match (← get).stack with
  | n :: _ => return n
  | [] => throw (.fault (.noIndex "list"))

/-- Changes the current state where it stands. -/
def edit (f : Record → Except Error Record) : M Unit := do
  let n ← currentNumber
  let r ← f ((← get).record n)
  modify (·.setState n r)

def replace (r : Record) : M Unit := do
  let _ ← currentNumber
  modify fun w => (w.pop.addState r).push w.states.length (by simp [addState, pop])

/-- A node that is to be visited in a state of its own carries the number of the state. -/
def mark : String := "(state)"

def mark1 (n : Nat) (v : Value) : M Value :=
  match v with
  | .node k as => return .node k (Attrs.set as mark (.int n))
  | v => do
    modify fun w => { w with waiting := (v, n) :: w.waiting.filter (·.1 != v) }
    return v

/-- Has a value, or each element of a list, visited in the numbered state. -/
def markEach (n : Nat) : Value → M Value
  | .list xs => do return .list (← xs.mapM (mark1 n))
  | v => mark1 n v

def changedState (changes : Dictionary) : M Record := do
  if changes.contains (.str "tree") then
    throw (.fault (.wrongCall "the tree to visit is given already"))
  let r ← ((← get).record (← currentNumber)).copy
  r.update changes

/-- Has a value, or each element of a list, visited in a changed copy of the current state. -/
def withState (v : Value) (changes : Dictionary) : M Value := do
  let r ← changedState changes
  let n := (← get).states.length
  modify (·.addState r)
  markEach n v

def registered? (w : Walk) : Value → Option Nat
  | .node _ as =>
    match Attrs.get? as mark with
    | some (.int n) => some n.toNat
    | _ => none
  | v => (w.waiting.find? (·.1 == v)).map (·.2)

/-- The walk in which no state waits for a value any longer. Nodes carry their marks themselves. -/
def forget (w : Walk) : Value → Walk
  | .node .. => w
  | v => { w with waiting := w.waiting.filter (·.1 != v) }

def unmarked : Value → Value
  | .node k as => .node k (Attrs.erase as mark)
  | v => v

def holds (w : Walk) (n : Nat) : Except Error Bool := do return (← (w.record n).size) != 0

/-- Puts the numbered state in force, if it holds something. -/
def enter (n : Nat) : M Unit := do
  if ← (← get).holds n then
    modify fun w => if h : n < w.states.length then w.push n h else w

/-- Puts the current state out of force, if the numbered one holds something. -/
def leave (n : Nat) : M Unit := do
  if ← (← get).holds n then
    match (← get).stack with
    | _ :: _ => modify pop
    | [] => throw (.fault (.outside .indexError "pop from empty list"))

/-- Runs an action in the numbered state, which is left however the action ends. -/
def inState {α : Type} (n : Option Nat) (act : M α) : M α :=
  match n with
  | some n => do
    enter n
    let r ← Act.attempt act
    leave n
    r
  | none => act

/-! ## Programs -/

/-- What a walker may ask for. -/
inductive Request where
  | state
  /-- Change the current state where it stands. -/
  | edit (f : Record → Except Error Record)
  /-- Make another state the current one. -/
  | replace (r : Record)
  | withState (v : Value) (changes : Dictionary)
  | collect (c : Collected)
  | visit (v : Value)
  /-- Change a tree where it stands. -/
  | change (act : Act Journal Attrs)
  /-- What the walker keeps for itself, and what it keeps from now on. -/
  | memory (f : Value → Value)

/-- The answer to a request. -/
abbrev Request.Reply : Request → Type
  | state => Record
  | edit _ | replace _ | collect _ => Unit
  | withState .. | visit _ | memory _ => Value
  | change _ => Attrs

/-- The doings of a walker from a node to its end. -/
inductive Program (α : Type) where
  | give (a : α)
  | fail (e : Error)
  | ask (r : Request) (next : Except Error r.Reply → Program α)

namespace Program

variable {α β : Type}

def andThen (p : Program α) (next : α → Program β) : Program β :=
  match p with
  | give a => next a
  | fail e => fail e
  | ask r k => ask r fun a => (k a).andThen next

def orElse (p : Program α) (next : Error → Program α) : Program α :=
  match p with
  | give a => give a
  | fail e => next e
  | ask r k => ask r fun a => (k a).orElse next

def ofExcept (r : Except Error α) : Program α :=
  match r with
  | .ok a => give a
  | .error e => fail e

def need (r : Request) : Program r.Reply := ask r ofExcept

instance : Monad Program where
  pure := give
  bind := andThen

instance : MonadExceptOf Error Program where
  throw := fail
  tryCatch := orElse

instance : MonadLift (Except Error) Program := ⟨ofExcept⟩

instance : Editing Program where
  assign as name v := need (.change (Act.assign as name v))
  unset as name := need (.change (Act.unset as name))
  refill as name xs := need (.change (Act.refill as name xs))

end Program

/-- What a walker does with the values that it visits. -/
abbrev Walker := Value → Program Value

/-! ## Visits -/

def answer (visit : Value → M Value) : (r : Request) → M r.Reply
  | .state => do return (← get).record (← currentNumber)
  | .edit f => edit f
  | .replace r => replace r
  | .withState v changes => withState v changes
  | .collect c => modify fun w => { w with collected := w.collected ++ [c] }
  | .visit v => visit v
  | .change act => Act.onJournal act
  | .memory f => modifyGet fun w => (w.memory, { w with memory := f w.memory })

def Program.run {α : Type} (visit : Value → M Value) : Program α → M α
  | .give a => pure a
  | .fail e => throw e
  | .ask r next => do
    let a ← Act.attempt (answer visit r)
    (next a).run visit

/-- What is done with a value in the state that it is visited in. -/
def treat (walker : Walker) (visit : Value → M Value) : Value → M Value
  | .list xs => do return Value.suite (← xs.mapM visit)
  | v => (walker v).run visit

def visit (walker : Walker) : Nat → Value → M Value
  | 0, _ => throw (.fault .tooDeep)
  | depth + 1, v => do
    let n := (← get).registered? v
    modify (·.forget v)
    inState n (treat walker (visit walker depth) (unmarked v))

def limit : Nat := 1000

def run (walker : Walker) (v : Value) : M Value := do visit walker limit (← Act.label v)

end Walk

namespace Value

def plainParts (as : Attrs) : Parts Unit :=
  as.map fun (name, v) => (name, ⟨v, (), match v with | list xs => xs.map (⟨·, ()⟩) | _ => [], []⟩)

def descend {m : Type → Type} [Monad m] [MonadExceptOf Error m] [Editing m]
    (visit : Value → m Value) (v : Value) : m Value :=
  match v with
  | node k as => rebuild (fun _ i => visit i.value) k as (plainParts as)
  | v => throw v.noFields

end Value

end TreeMacros
