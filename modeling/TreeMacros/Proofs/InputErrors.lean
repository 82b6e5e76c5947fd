import TreeMacros.Proofs.InputBindings

/-!
# Errors in inputs

An input whose expansion fails is not run. The console says what is wrong with it if it knows the
kind of error; any other error ends the console, as does a macro that cannot be imported plainly
after an input has been run.
-/

namespace TreeMacros.Console.Line

open Act (Keeps keeps_lift keeps_pure bind_ok bind_error get_run lift_run lift_bind_ok)

variable {c : Line} {text : String}

/-- What the console says about an error in an input, unless it lets the error through. -/
def message (e : Error) : Option Event :=
  if isShown e then some (.showError e)
  else if e.kind.isA .importError then some (.write (e.kind.name ++ ": " ++ e.text ++ "\n"))
  else none

/-- A macro was defined in the session, or its plain import can be read. -/
def Importable (w : World) (entry : String × Binding) : Prop :=
  ∃ statement?, entry.2.importStatement? entry.1 = .ok statement? ∧
    ∀ statement ∈ statement?, ∃ tree body,
      w.parse statement = some tree ∧ tree.attr "body" = .ok body

/-- All macros can be imported plainly, if there are new ones. -/
def Refreshable (c : Line) : Prop :=
  c.session.hasChanged = true →
    ∀ entry ∈ c.session.expander.allBindings c.session.world, Importable c.session.world entry

theorem importPlainly_run (c : Line) (entry : String × Binding) :
    (importPlainly entry c).2.session = c.session ∧
      ((importPlainly entry c).1 = .ok () ↔ Importable c.session.world entry) := by
  unfold importPlainly Importable
  cases entry.2.importStatement? entry.1 with
  | error e => exact ⟨rfl, by simp [bind_error (lift_run _ c)]⟩
  | ok statement? =>
    rw [lift_bind_ok rfl]
    cases statement? with
    | none => exact ⟨rfl, by simp⟩
    | some statement =>
      dsimp only [runInternal]
      cases hparse : c.session.world.parse statement with
      | none =>
        rw [bind_error (parse_none hparse)]
        exact ⟨rfl, by simp [hparse]⟩
      | some tree =>
        rw [bind_ok (parse_some hparse)]
        cases hbody : tree.attr "body" with
        | error e => exact ⟨rfl, by simp [bind_error (lift_run _ c), hparse, hbody]⟩
        | ok body =>
          rw [lift_bind_ok rfl]
          exact ⟨rfl, by simp [emit, hparse, hbody]⟩

theorem imports_run (c : Line) (entries : List (String × Binding)) :
    (entries.forM importPlainly c).1 = .ok () ↔ ∀ entry ∈ entries, Importable c.session.world entry := by
  induction entries generalizing c with
  | nil => exact ⟨fun _ => nofun, fun _ => rfl⟩
  | cons entry entries ih =>
    obtain ⟨hsession, hfirst⟩ := importPlainly_run c entry
    change ((importPlainly entry >>= fun _ => entries.forM importPlainly) c).1 = _ ↔ _
    rw [List.forall_mem_cons, ← hfirst, ← hsession]
    match hrun : importPlainly entry c with
    | (.error e, d) => simp [bind_error hrun]
    | (.ok _, d) =>
      rw [bind_ok hrun, ih d]
      simp

theorem refresh_run (c : Line) : (refresh c).1 = .ok () ↔ c.Refreshable := by
  unfold refresh Refreshable
  rw [bind_ok (get_run c)]
  cases hchanged : c.session.hasChanged with
  | false => simp
  | true =>
    have himports := imports_run { c with session := { c.session with hasChanged := false } }
      (c.session.expander.allBindings c.session.world)
    exact ⟨fun h _ => himports.mp h, fun h => himports.mpr (h rfl)⟩

/-- The console lives on after an input. -/
def Survives (c : Line) (text : String) : Prop :=
  if text = "macros?" then ∃ listing, (c.session.expander.describe c.session.world).1 = .ok listing
  else c.isIncomplete (meaning text) = true ∨
    match compile (meaning text) c with
    | (.ok _, d) => d.Refreshable
    | (.error e, _) => (message e).isSome = true

theorem events_compile (text : String) (c : Line) : (compile text c).2.events = c.events := by
  have hkeeps : Keeps (fun c d : Line => d.events = c.events) (compile text) :=
    have hlift {α : Type} (act : Session.M α) : Keeps (fun c d : Line => d.events = c.events) (lift act) := fun _ => rfl
    (hlift _).bind fun _ => (hlift _).bind fun _ => (keeps_lift _).bind fun _ => keeps_pure _
  exact hkeeps c

theorem runText_of_failed {e : Error} {d : Line} (hcomplete : c.isIncomplete text = false)
    (h : compile text c = (.error e, d)) :
    (runText text c).2.events = c.events ++ (message e).toList ∧
      ((∃ more, (runText text c).1 = .ok more) ↔ (message e).isSome) := by
  have hevents : d.events = c.events := by rw [← events_compile text c, h]
  have hattempt : Act.attempt (compile text) c = (.ok (.error e), d) := by
    rw [Act.attempt, h]
  unfold runText message
  rw [bind_ok (get_run c), hcomplete, if_neg (by decide), bind_ok hattempt]
  dsimp only
  have hsaid (event : Event) : (emit event d).2.events = c.events ++ [event] := by
    rw [← hevents]
    rfl
  split_ifs
  · exact ⟨hsaid _, fun _ => rfl, fun _ => ⟨false, rfl⟩⟩
  · exact ⟨hsaid _, fun _ => rfl, fun _ => ⟨false, rfl⟩⟩
  · refine ⟨hevents.trans (List.append_nil _).symm, ?_, fun h => absurd h Bool.false_ne_true⟩
    rintro ⟨_, h⟩
    cases h

theorem runText_of_compiled {tree : Value} {d : Line} (hcomplete : c.isIncomplete text = false)
    (h : compile text c = (.ok tree, d)) :
    (∃ more, (runText text c).1 = .ok more) ↔ d.Refreshable := by
  have hattempt : Act.attempt (compile text) c = (.ok (.ok tree), d) := by
    rw [Act.attempt, h]
  unfold runText
  rw [bind_ok (get_run c), hcomplete, if_neg (by decide), bind_ok hattempt]
  have hrefresh : Refreshable { d with events := d.events ++ [.run tree] } ↔ d.Refreshable := Iff.rfl
  rw [← hrefresh, ← refresh_run]
  rcases hrun : refresh { d with events := d.events ++ [.run tree] } with ⟨e | _, t⟩
  · have hfails := congrArg Prod.fst (bind_error (f := fun _ => (pure false : M Bool)) hrun)
    refine ⟨?_, fun h => by cases h⟩
    rintro ⟨_, h⟩
    cases hfails.symm.trans h
  · exact ⟨fun _ => rfl, fun _ => ⟨false, congrArg Prod.fst (bind_ok (f := fun _ => pure false) hrun)⟩⟩

end TreeMacros.Console.Line
