import TreeMacros.Proofs.Names
import TreeMacros.Proofs.Steps

/-!
# What detection depends on

Whether something is an invocation depends on the state only through the names that can be invoked
and what they are bound to. Expansion never takes such a name away: it binds fresh names only.
-/

namespace TreeMacros

namespace Bindings

theorem get?_insert (bs : Bindings) (name other : String) (b : Binding) :
    get? (insert bs name b) other = if other = name then some b else get? bs other := by
  induction bs with
  | nil =>
    by_cases h : other = name
    · simp [insert, get?, h]
    · simp [insert, get?, List.lookup_cons, beq_eq_false_iff_ne.mpr h, h]
  | cons c bs ih =>
    obtain ⟨n, c⟩ := c
    unfold get? at ih ⊢
    by_cases hn : n = name
    · by_cases h : other = n
      · simp [insert, ← hn, h]
      · simp [insert, ← hn, List.lookup_cons, beq_eq_false_iff_ne.mpr h, h]
    · by_cases h : other = n
      · have hne : ¬ other = name := fun e => hn (h ▸ e)
        simp [insert, hn, h]
      · simp [insert, hn, List.lookup_cons, beq_eq_false_iff_ne.mpr h, ih]

end Bindings

namespace World

/-- Every name that is bound globally has been taken from the supply of names. -/
def Tidy (w : World) : Prop :=
  ∀ name b, Bindings.get? w.globals name = some b → name ∈ w.names.used

/-- Expansion keeps the mode and what is bound. -/
structure Kept (w t : World) : Prop where
  recursive : t.recursive = w.recursive
  tidy : w.Tidy → t.Tidy
  globals : w.Tidy → ∀ name b, Bindings.get? w.globals name = some b →
    Bindings.get? t.globals name = some b

instance : Admits Kept where
  refl _ := ⟨rfl, fun h => h, fun _ _ _ h => h⟩
  trans _ _ _ h h' := ⟨h'.recursive.trans h.recursive, fun hw => h'.tidy (h.tidy hw),
    fun hw name b hb => h'.globals (h.tidy hw) name b (h.globals hw name b hb)⟩
  records _ _ _ _ _ _ := ⟨rfl, fun h => h, fun _ _ _ h => h⟩
  fresh w base := by
    refine ⟨rfl, fun h name b hb => ?_, fun _ _ _ h => h⟩
    simp only [NameSupply.fresh_used]
    exact List.mem_cons_of_mem _ (h name b hb)
  capture w base c _ := by
    refine ⟨rfl, fun h name b hb => ?_, fun h name b hb => ?_⟩
    · simp only [NameSupply.fresh_used]
      simp only [Bindings.get?_insert] at hb
      by_cases hname : name = (w.names.fresh base).1
      · simp [hname]
      · rw [if_neg hname] at hb
        exact List.mem_cons_of_mem _ (h name b hb)
    · have hname : name ≠ (w.names.fresh base).1 := by
        rintro rfl
        exact NameSupply.fresh_notMem w.names base (h _ b hb)
      simp only [Bindings.get?_insert, if_neg hname, hb]
  mode _ _ _ h := ⟨rfl, h.tidy, h.globals⟩
  quoteLevel _ _ _ h := ⟨h.recursive, h.tidy, h.globals⟩
  stepLevel _ _ _ h := ⟨h.recursive, h.tidy, h.globals⟩

end World

namespace Expander

variable {x : Expander} {w t : World}

/-- What a name is bound to, if it can be invoked. -/
def known? (x : Expander) (w : World) (name : String) : Option Binding :=
  if name = "" then none else (x.find? w name).filter (·.isTruthy)

/-- What any value is bound to, if it is a name that can be invoked. -/
def knownValue? (x : Expander) (w : World) : Value → Option Binding
  | .str s => x.known? w s
  | _ => none

theorem known?_of_find? {name : String} (h : x.find? w name = none) : x.known? w name = none := by
  simp [known?, h]

theorem known?_of_globals (h : t.globals = w.globals) : x.known? t = x.known? w := by
  funext name
  simp only [known?, find?, h]

theorem known?_of_kept (h : World.Kept w t) (hw : w.Tidy) {name : String} {b : Binding}
    (hb : x.known? w name = some b) : x.known? t name = some b := by
  unfold known? at hb ⊢
  split at hb
  · cases hb
  next hname =>
    rw [if_neg hname]
    obtain ⟨hfind, htruthy⟩ := Option.filter_eq_some_iff.mp hb
    refine Option.filter_eq_some_iff.mpr ⟨?_, htruthy⟩
    unfold find? at hfind ⊢
    split at hfind
    · exact hfind
    · exact h.globals hw name b hfind

/-! ## Outcomes of detection -/

/-- The outcome of the action depends on the state only through the known names, which it leaves
as they are. -/
def Heeds (x : Expander) {α : Type} (act : Expansion α) : Prop :=
  ∀ w t, x.known? w = x.known? t → (act w).1 = (act t).1 ∧ x.known? (act w).2 = x.known? w

section

variable {α β : Type} {act : Expansion α}

theorem heeds_pure (x : Expander) (a : α) : x.Heeds (pure a) := fun _ _ _ => ⟨rfl, rfl⟩

theorem heeds_throw (x : Expander) (e : Error) : x.Heeds (throw e : Expansion α) :=
  fun _ _ _ => ⟨rfl, rfl⟩

theorem heeds_lift (x : Expander) (r : Except Error α) : x.Heeds (liftM r : Expansion α) :=
  fun _ _ _ => ⟨rfl, rfl⟩

theorem Heeds.bind {f : α → Expansion β} (h : x.Heeds act) (hf : ∀ a, x.Heeds (f a)) :
    x.Heeds (act >>= f) := by
  intro w t hwt
  obtain ⟨hout, hw⟩ := h w t hwt
  have ht := (h t w hwt.symm).2
  match hactw : act w, hactt : act t with
  | (.ok a, w'), (r, t') =>
    rw [hactw, hactt] at hout
    rw [hactw] at hw
    rw [hactt] at ht
    obtain rfl : .ok a = r := hout
    rw [Act.bind_ok hactw, Act.bind_ok hactt]
    have hnext := hf a w' t' (hw.trans (hwt.trans ht.symm))
    exact ⟨hnext.1, hnext.2.trans hw⟩
  | (.error e, w'), (r, t') =>
    rw [hactw, hactt] at hout
    rw [hactw] at hw
    obtain rfl : .error e = r := hout
    rw [Act.bind_error hactw, Act.bind_error hactt]
    exact ⟨rfl, hw⟩

theorem Heeds.ite {p : Prop} [Decidable p] {act' : Expansion α} (h : x.Heeds act)
    (h' : x.Heeds act') : x.Heeds (if p then act else act') := by
  split
  · exact h
  · exact h'

theorem Heeds.mapM {γ : Type} {f : γ → Expansion β} {xs : List γ} (h : ∀ y ∈ xs, x.Heeds (f y)) :
    x.Heeds (xs.mapM f) := by
  induction xs with
  | nil => exact heeds_pure x _
  | cons y ys ih =>
    rw [List.mapM_cons]
    exact (h y (by simp)).bind fun _ => (ih fun z hz => h z (by simp [hz])).bind fun _ =>
      heeds_pure x _

end

theorem invocable?_run (x : Expander) (name : Value) (w : World) :
    x.invocable? name w =
      (if name.isTruthy && !name.isHashable then .error (.fault (.unhashable name.typeName))
        else .ok (x.knownValue? w name), w) := by
  by_cases ht : name.isTruthy
  · by_cases hh : name.isHashable
    · simp only [invocable?, ht, hh, Bool.not_true, Bool.and_false, Bool.false_eq_true, ↓reduceIte]
      cases name with
      | str s =>
        have hs : s ≠ "" := by simpa [Value.isTruthy] using ht
        have hbound : x.bound? (.str s) w = (.ok (x.find? w s), w) := rfl
        rw [Act.bind_ok hbound, knownValue?, known?, if_neg hs]
        cases x.find? w s with
        | none => rfl
        | some b =>
          simp only [Option.filter]
          split <;> rfl
      | _ =>
        simp only [bound?, hh]
        rfl
    · have hbound : x.bound? name w = (.error (.fault (.unhashable name.typeName)), w) := by
        simp only [bound?, hh]
        rfl
      simp only [invocable?, ht, hh, Bool.not_true, Bool.false_eq_true, ↓reduceIte]
      rw [Act.bind_error hbound]
      rfl
  · simp only [invocable?, ht, Bool.not_false, ↓reduceIte, Bool.false_and, Bool.false_eq_true]
    cases name with
    | str s =>
      have hs : s = "" := by simpa [Value.isTruthy] using ht
      simp [knownValue?, known?, hs]
    | _ => rfl

theorem invocable?_str (x : Expander) (s : String) (w : World) :
    x.invocable? (.str s) w = (.ok (x.known? w s), w) := by
  rw [invocable?_run]
  simp [Value.isHashable, knownValue?]

theorem isCall_run (x : Expander) (s : String) (args : Value) (form : Form) (w : World) :
    x.isCall (.str s) args form w = (.ok (match x.known? w s with
      | none => false
      | some b =>
        match form with
        | .name => b.isName
        | _ => !args.isTruthy || b.isParametric), w) := by
  rw [isCall, Act.bind_ok (invocable?_str x s w)]
  cases x.known? w s with
  | none => rfl
  | some b => cases form <;> rfl

theorem isCall_of_unknown {s : String} (h : x.known? w s = none) (args : Value) (form : Form) :
    x.isCall (.str s) args form w = (.ok false, w) := by
  rw [isCall_run, h]

theorem heeds_invocable? (x : Expander) (name : Value) : x.Heeds (x.invocable? name) := by
  intro w t hwt
  have hvalue : x.knownValue? w name = x.knownValue? t name := by
    cases name with
    | str s => exact congrFun hwt s
    | _ => rfl
  rw [invocable?_run, invocable?_run, hvalue]
  exact ⟨rfl, rfl⟩

theorem heeds_isCall (x : Expander) (name args : Value) (form : Form) :
    x.Heeds (x.isCall name args form) := by
  refine (heeds_invocable? x name).bind fun b => ?_
  cases b with
  | none => exact heeds_pure x _
  | some b => cases form <;> exact heeds_pure x _

theorem heeds_isMacroItem (x : Expander) (form : Form) (item : Value) :
    x.Heeds (x.isMacroItem form item) := by
  refine (heeds_lift x _).bind fun c => (heeds_lift x _).bind fun c => ?_
  rcases c with _ | ⟨name, args⟩
  · exact heeds_pure x _
  · refine (heeds_invocable? x name).bind fun b => ?_
    cases b with
    | none => exact heeds_pure x _
    | some b =>
      have hwarn (warning : Warning) : x.Heeds (Expansion.warn warning) := fun _ _ _ => ⟨rfl, rfl⟩
      refine Heeds.ite ((heeds_lift x _).bind fun _ => ?_) (heeds_isCall x name args form)
      refine Heeds.ite ((heeds_throw x _).bind fun _ => ?_) ?_
      all_goals exact (hwarn _).bind fun _ => heeds_isCall x name args form

theorem heeds_detect (x : Expander) (form : Form) (items : Value) :
    x.Heeds (x.detect form items) :=
  (heeds_lift x _).bind fun _ =>
    Heeds.mapM fun item _ => (heeds_isMacroItem x form item).bind fun _ => heeds_pure x _

/-! ## Invocations -/

/-- Whether a tree as a whole invokes a macro. -/
def invokes (x : Expander) (v : Value) : Expansion Bool :=
  match v.kind? with
  | some .subscript => do
    match ← (← v.attr "value").candidate? with
    | none => return false
    | some (name, args) => x.isCall name args .expr
  | some .withStmt => do return (← x.detect .block (← v.attr "items")).any (·.2)
  | some .functionDef | some .classDef => do
    return (← x.detect .decorator (← v.attr "decorator_list")).any (·.2)
  | some .name => do x.isCall (← v.attr "id") .none .name
  | _ => return false

/-- The tree as a whole is an invocation. -/
def isInvocation (x : Expander) (w : World) (v : Value) : Bool :=
  match (x.invokes v w).1 with
  | .ok b => b
  | .error _ => false

theorem heeds_invokes (x : Expander) (v : Value) : x.Heeds (x.invokes v) := by
  unfold invokes
  split
  · refine (heeds_lift x _).bind fun _ => (heeds_lift x _).bind fun c => ?_
    rcases c with _ | ⟨name, args⟩
    · exact heeds_pure x _
    · exact heeds_isCall x name args .expr
  · exact (heeds_lift x _).bind fun _ => (heeds_detect x _ _).bind fun _ => heeds_pure x _
  · exact (heeds_lift x _).bind fun _ => (heeds_detect x _ _).bind fun _ => heeds_pure x _
  · exact (heeds_lift x _).bind fun _ => (heeds_detect x _ _).bind fun _ => heeds_pure x _
  · exact (heeds_lift x _).bind fun _ => heeds_isCall x _ _ _
  · exact heeds_pure x _

theorem isInvocation_congr (h : x.known? w = x.known? t) (v : Value) :
    x.isInvocation w v = x.isInvocation t v := by
  rw [isInvocation, isInvocation, (heeds_invokes x v w t h).1]

theorem isInvocation_of_run {v : Value} {b : Bool} (h : x.invokes v w = (.ok b, t)) :
    x.isInvocation w v = b := by
  rw [isInvocation, h]

end Expander

end TreeMacros
