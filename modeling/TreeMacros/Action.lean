import TreeMacros.Error

/-!
# Actions

An action reads and changes a state and may fail. What it has done to the state before it failed
stays done.
-/

namespace TreeMacros

abbrev Act (σ : Type) := ExceptT Error (StateM σ)

namespace Act

variable {σ α : Type}

def ofExcept (r : Except Error α) : Act σ α := fun s => (r, s)

/-- Runs an action and then changes the state, whether the action failed or not. -/
def andThen (act : Act σ α) (after : σ → σ) : Act σ α := fun s =>
  let (r, t) := act s
  (r, after t)

/-- Runs an action within a section: one change before it, another after it, however it ends. -/
def within (before : σ → σ) (after : σ → σ → σ) (act : Act σ α) : Act σ α := fun s =>
  let (r, t) := act (before s)
  (r, after s t)

/-- The outcome of an action as a value: errors become something that can be looked at. -/
def attempt (act : Act σ α) : Act σ (Except Error α) := fun s =>
  let (r, t) := act s
  (.ok r, t)

def runOn (act : Act σ α) (s : σ) : Except Error α × σ := act s

end Act

instance {σ : Type} : MonadLift (Except Error) (Act σ) := ⟨Act.ofExcept⟩

end TreeMacros
