import TreeMacros.Proofs.Steps

/-!
# Sections end where they began

A visit leaves the mode and the quote levels as it found them, whether it returns or fails. On the
way it changes them, within sections; to say that the levels are sound at every moment, an observer
is put into expansion that looks at them whenever something begins, and it has nothing to report.
-/

namespace TreeMacros

open World (Admits)
open Act (Keeps Agree agree_pure agree_throw agree_get agree_lift agree_of_keeps)

/-! ## Restored state -/

namespace World

structure Restored (w t : World) : Prop where
  recursive : t.recursive = w.recursive
  quoteLevels : t.quoteLevels = w.quoteLevels

instance : Admits Restored where
  refl _ := ⟨rfl, rfl⟩
  trans _ _ _ h h' := ⟨h'.recursive.trans h.recursive, h'.quoteLevels.trans h.quoteLevels⟩
  records _ _ _ _ _ _ := ⟨rfl, rfl⟩
  fresh _ _ := ⟨rfl, rfl⟩
  capture _ _ _ _ := ⟨rfl, rfl⟩
  mode _ _ _ h := ⟨rfl, h.quoteLevels⟩
  quoteLevel _ _ _ h := ⟨h.recursive, rfl⟩
  stepLevel _ _ _ h := ⟨h.recursive, h.quoteLevels⟩

end World

/-! ## Sound levels -/

def Value.isLevel (v : Value) : Bool := v.toInt?.any (0 ≤ ·)

namespace Levels

def areSound (l : Levels) : Bool := !l.toList.isEmpty && l.toList.all Value.isLevel

theorem areSound_cons {l : Levels} {level : Value} (hl : l.areSound)
    (hlevel : level.isLevel) :
    Levels.areSound { l with entered := level :: l.entered } := by
  simp only [areSound, toList, List.isEmpty_cons, Bool.not_false, Bool.true_and, List.all_cons,
    List.all_reverse] at hl ⊢
  simp_all

theorem areSound_of_changedBy {l l' : Levels} {delta : Value} (hl : l.areSound)
    (h : l.changedBy delta = .ok l') : l'.areSound := by
  unfold changedBy at h
  match hsum : l.current.plus delta with
  | .error e => rw [hsum] at h; cases h
  | .ok level =>
    rw [hsum] at h
    change l.setTo level = .ok l' at h
    unfold setTo at h
    split at h
    · cases h
    next n hn =>
      split at h
      · cases h
      next hpos =>
        cases h
        refine areSound_cons hl ?_
        simpa [Value.isLevel, hn] using hpos

end Levels

/-! ## The observer -/

namespace Expansion

variable {α : Type}

/-- Leaves a message if the levels are not sound. -/
def inspect : Expansion Unit :=
  modify fun w =>
    if w.quoteLevels.areSound then w else { w with printed := w.printed ++ ["unsound levels"] }

end Expansion

namespace Expander

/-- Runs the program of a macro under inspection: before each of its steps, also within sections. -/
def inspectedRun (visit : Visit) (x : Expander) (m : Macro) : Program → Expansion Value
  | .give v => do
    Expansion.inspect
    return v
  | .fail e => do
    Expansion.inspect
    throw e
  | .ask r next => do
    Expansion.inspect
    let a ← Act.attempt (answer visit x m r)
    inspectedRun visit x m (next a)
  | .within s body next => do
    Expansion.inspect
    let a ← Act.attempt (inScope s (inspectedRun visit x m body))
    inspectedRun visit x m (next a)

def inspectedApply (visit : Visit) (x : Expander) (b : Binding) (call : Call) :
    Expansion Answered :=
  match b with
  | .transformer m =>
    match m.transformer with
    | .eager f => do return .ready (← inspectedRun visit x m (f call))
    | .lazy start => do return .pending m (← start call)
  | b => apply visit x b call

def inspectedOutput (visit : Visit) (x : Expander) (location : String) (a : Answered) :
    Expansion Value := do
  match a with
  | .ready v => checkOutput location v
  | .pending m p =>
    match ← Act.attempt (inspectedRun visit x m p) with
    | .error _ => throw (unfinishedOutput location)
    | .ok v => checkOutput location v

def inspectedExpand (visit : Visit) (x : Expander) (i : Invocation) : Expansion Value := do
  Expansion.inspect
  let call := i.call
  let location := formatLocation x.filename call.invocation (some i.source)
  match ← x.bound? i.name with
  | none => throw (.fault (.noKey i.name.repr))
  | some b =>
    match ← Act.attempt (inspectedApply visit x b call) with
    | .error e => throw (e.atUse (useSite location call.form i.name.display))
    | .ok a =>
      settle visit x call.invocation (← inspectedOutput visit x location a)

/-- Visits a tree under inspection, as `visitAt` does without. -/
def inspectedAt : Nat → Visit
  | 0 => fun _ _ => throw (.fault .tooDeep)
  | depth + 1 => fun x v => do
    Expansion.inspect
    x.walk (x.inspectedExpand (inspectedAt depth)) (inspectedAt depth) v

end Expander

/-! ## Nothing to report -/

/-- The states that are not worth a message. -/
def World.IsSound (w : World) : Prop := w.quoteLevels.areSound = true

open World (IsSound)

/-- What a sound state can become. -/
def World.StaysSound (w t : World) : Prop := IsSound w → IsSound t

open World (StaysSound)

instance : World.Allows IsSound StaysSound where
  refl _ h := h
  trans _ _ _ h h' hw := h' (h hw)
  records _ _ _ _ _ _ h := h
  stable _ _ hw h := h hw
  enter _ _ h := h
  mode _ _ _ h hw := h hw

section

variable {α : Type}

theorem staysSound_of_keeps {act : Expansion α} (h : Keeps World.Restored act) :
    Keeps StaysSound act := by
  intro w hw
  rw [IsSound, (h w).quoteLevels]
  exact hw

theorem Act.Agree.inspected {act act' : Expansion α} (h : Agree IsSound StaysSound act act') :
    Agree IsSound StaysSound act (Expansion.inspect >>= fun _ => act') := by
  intro w hw
  have hsound : w.quoteLevels.areSound := hw
  have hinspect : Expansion.inspect w = (.ok (), w) := by
    rw [Expansion.inspect, Act.modify_run, if_pos hsound]
  rw [Act.bind_ok hinspect]
  exact h w hw

theorem Act.Agree.inScope {act act' : Expansion α} (h : Agree IsSound StaysSound act act') (s : Scope) :
    Agree IsSound StaysSound (Expander.inScope s act) (Expander.inScope s act') := by
  intro w hw
  cases s with
  | quote delta =>
    change (Expansion.atQuoteLevel delta act') w = (Expansion.atQuoteLevel delta act) w ∧
      StaysSound w (Expansion.atQuoteLevel delta act w).2
    unfold Expansion.atQuoteLevel
    match hlevels : w.quoteLevels.changedBy delta with
    | .error e =>
      have herror (f : Levels → Expansion α) :
          (do let levels ← (← get).quoteLevels.changedBy delta; f levels : Expansion α) w =
            (.error e, w) := by
        rw [Act.bind_ok (Act.get_run w)]
        exact Act.bind_error (by rw [Act.lift_run, hlevels])
      rw [herror, herror]
      exact ⟨rfl, fun h => h⟩
    | .ok levels =>
      have hok (f : Levels → Expansion α) :
          (do let levels ← (← get).quoteLevels.changedBy delta; f levels : Expansion α) w =
            f levels w := by
        rw [Act.bind_ok (Act.get_run w), Act.lift_bind_ok hlevels]
      obtain ⟨hrun, -⟩ := h { w with quoteLevels := levels }
        (Levels.areSound_of_changedBy hw hlevels)
      rw [hok, hok]
      exact ⟨by simp only [Act.within, hrun], fun h => h⟩
  | step delta =>
    refine (agree_get.bind fun _ => (agree_lift _).bind fun levels => ?_) w hw
    exact h.within (fun _ hw => hw) fun _ _ ht => ht

end

namespace Expander

variable {visit visit' : Visit}

private theorem visitsAgree_inspected (h : ∀ x v, Agree IsSound StaysSound (visit x v) (visit' x v))
    (x : Expander) : VisitsAgree IsSound StaysSound visit visit' x where
  visits := h x
  unquotes suite v := agree_get.bind fun _ => (agree_visitTree (h _) suite v).inMode true
  scope s _ _ hact := hact.inScope s
  capture body := staysSound_of_keeps (keeps_capture? x body)
  fresh base := staysSound_of_keeps (keeps_fresh base)

theorem agree_inspectedRun (h : ∀ x v, Agree IsSound StaysSound (visit x v) (visit' x v)) (x : Expander) (m : Macro)
    (p : Program) : Agree IsSound StaysSound (run visit x m p) (inspectedRun visit' x m p) := by
  induction p with
  | give v => exact (agree_pure v).inspected
  | fail e => exact (agree_throw e).inspected
  | ask r next ih => exact ((agree_answer (visitsAgree_inspected h x) m r).attempt.bind ih).inspected
  | within s body next ihbody ih => exact ((ihbody.inScope s).attempt.bind ih).inspected

theorem agree_inspectedApply (h : ∀ x v, Agree IsSound StaysSound (visit x v) (visit' x v)) (x : Expander) (b : Binding)
    (call : Call) : Agree IsSound StaysSound (apply visit x b call) (inspectedApply visit' x b call) := by
  cases b with
  | transformer m =>
    simp only [apply, inspectedApply]
    cases m.transformer with
    | eager f => exact (agree_inspectedRun h x m (f call)).bind fun _ => agree_pure _
    | lazy start => exact (agree_lift _).bind fun _ => agree_pure _
  | _ => exact agree_throw _

theorem agree_inspectedOutput (h : ∀ x v, Agree IsSound StaysSound (visit x v) (visit' x v)) (x : Expander)
    (location : String) (a : Answered) :
    Agree IsSound StaysSound (takeOutput visit x location a) (inspectedOutput visit' x location a) := by
  cases a with
  | ready v => exact agree_lift _
  | pending m p =>
    refine (agree_inspectedRun h x m p).attempt.bind fun r => ?_
    cases r with
    | ok v => exact agree_lift _
    | error e => exact agree_throw _

theorem agree_inspectedExpand (h : ∀ x v, Agree IsSound StaysSound (visit x v) (visit' x v)) (x : Expander)
    (i : Invocation) : Agree IsSound StaysSound (x.expand visit i) (x.inspectedExpand visit' i) := by
  refine Agree.inspected ((agree_of_keeps (keeps_bound? x i.name)).bind fun b => ?_)
  cases b with
  | none => exact agree_throw _
  | some b =>
    refine (agree_inspectedApply h x b i.call).attempt.bind fun r => ?_
    cases r with
    | error e => exact agree_throw _
    | ok a => exact (agree_inspectedOutput h x _ a).bind fun _ => agree_settle (h x) _ _

theorem agree_inspectedAt (depth : Nat) (x : Expander) (v : Value) :
    Agree IsSound StaysSound (visitAt depth x v) (inspectedAt depth x v) := by
  induction depth generalizing x v with
  | zero => exact agree_throw _
  | succ depth ih => exact (agree_walk (ih x) (agree_inspectedExpand ih x) v).inspected

/-- A macro that goes up one level, has a tree visited there, and fails to go down two. -/
def restless : Macro :=
  ⟨.made 0, "m", "m", none, false, false, .eager fun call =>
    .inScope (.quote (.int 1)) (.ask (.visit .once none call.tree) fun _ =>
      .inScope (.quote (.int (-2))) (.give .none))⟩

def bracketed : Value :=
  .node .subscript
    [("value", .node .name [("id", .str "m"), ("ctx", .node .load [])]),
     ("slice", .node .index [("value", .node .name [("id", .str "b"), ("ctx", .node .load [])])]),
     ("ctx", .node .load [])]

end Expander

end TreeMacros
