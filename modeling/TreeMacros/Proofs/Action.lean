import Mathlib.Order.Defs.Unbundled
import TreeMacros.Action

/-!
# Running actions

An action is known by its outcome for each state. The lemmas here say what the outcome of a
sequence is, what can be told from the success of one, and what a sequence does to the state if
each of its steps does no more than a relation allows.
-/

namespace TreeMacros

namespace Act

variable {σ α β : Type}

@[simp] theorem pure_run (a : α) (s : σ) : (pure a : Act σ α) s = (.ok a, s) := rfl

@[simp] theorem get_run (s : σ) : (get : Act σ σ) s = (.ok s, s) := rfl

@[simp] theorem modify_run (f : σ → σ) (s : σ) : (modify f : Act σ Unit) s = (.ok (), f s) := rfl

@[simp] theorem lift_run (r : Except Error α) (s : σ) : (liftM r : Act σ α) s = (r, s) := rfl

theorem bind_ok {x : Act σ α} {f : α → Act σ β} {s t : σ} {a : α} (h : x s = (.ok a, t)) :
    (x >>= f) s = f a t := by
  change (ExceptT.bind x f) s = _
  simp only [ExceptT.bind, ExceptT.mk, bind, StateT.bind, h]
  rfl

theorem bind_error {x : Act σ α} {f : α → Act σ β} {s t : σ} {e : Error}
    (h : x s = (.error e, t)) : (x >>= f) s = (.error e, t) := by
  change (ExceptT.bind x f) s = _
  simp only [ExceptT.bind, ExceptT.mk, bind, StateT.bind, h]
  rfl

theorem bind_eq_ok {x : Act σ α} {f : α → Act σ β} {s u : σ} {b : β} :
    (x >>= f) s = (.ok b, u) ↔ ∃ a t, x s = (.ok a, t) ∧ f a t = (.ok b, u) := by
  constructor
  · intro h
    match hx : x s with
    | (.ok a, t) =>
      rw [bind_ok hx] at h
      exact ⟨a, t, rfl, h⟩
    | (.error e, t) =>
      rw [bind_error hx] at h
      cases h
  · rintro ⟨a, t, hx, h⟩
    rw [bind_ok hx, h]

theorem lift_bind_ok {r : Except Error α} {f : α → Act σ β} {s : σ} {a : α} (h : r = .ok a) :
    ((liftM r : Act σ α) >>= f) s = f a s :=
  bind_ok (by rw [lift_run, h])

theorem lift_bind_eq_ok {r : Except Error α} {f : α → Act σ β} {s u : σ} {b : β} :
    ((liftM r : Act σ α) >>= f) s = (.ok b, u) ↔ ∃ a, r = .ok a ∧ f a s = (.ok b, u) := by
  constructor
  · intro h
    obtain ⟨a, t, hr, h⟩ := bind_eq_ok.mp h
    cases hr
    exact ⟨a, rfl, h⟩
  · rintro ⟨a, hr, h⟩
    rw [lift_bind_ok hr, h]

/-! ## What actions do to the state -/

/-- The action changes the state only as the relation allows, also if it fails. -/
def Keeps (R : σ → σ → Prop) (act : Act σ α) : Prop := ∀ s, R s (act s).2

theorem Keeps.of_run {R : σ → σ → Prop} {act : Act σ α} (h : Keeps R act) {s t : σ}
    {r : Except Error α} (hrun : act s = (r, t)) : R s t := by
  have hs := h s
  rwa [hrun] at hs

theorem Keeps.ite {R : σ → σ → Prop} {p : Prop} [Decidable p] {x y : Act σ α} (hx : Keeps R x)
    (hy : Keeps R y) : Keeps R (if p then x else y) := by
  split
  · exact hx
  · exact hy

section

variable {R : σ → σ → Prop} [IsPreorder σ R] {act : Act σ α}

theorem Keeps.of_eq (h : ∀ s, (act s).2 = s) : Keeps R act := by
  intro s
  rw [h]
  exact refl s

theorem keeps_pure (a : α) : Keeps R (pure a : Act σ α) := .of_eq fun _ => rfl

theorem keeps_throw (e : Error) : Keeps R (throw e : Act σ α) := .of_eq fun _ => rfl

theorem keeps_get : Keeps R (get : Act σ σ) := .of_eq fun _ => rfl

theorem keeps_lift (r : Except Error α) : Keeps R (liftM r : Act σ α) := .of_eq fun _ => rfl

end

/-! ## Two ways to do the same -/

/-- A condition on states that outlasts what the relation allows. -/
class Stable (P : σ → Prop) (R : σ → σ → Prop) : Prop extends IsPreorder σ R where
  stable : ∀ s t, P s → R s t → P t

instance (R : σ → σ → Prop) [IsPreorder σ R] : Stable (fun _ => True) R := ⟨fun _ _ h _ => h⟩

/-- From states with `P`, the actions have the same outcome, and they change the state only as the
relation allows. -/
def Agree (P : σ → Prop) (R : σ → σ → Prop) (act act' : Act σ α) : Prop :=
  ∀ s, P s → act' s = act s ∧ R s (act s).2

section

variable {P : σ → Prop} {R : σ → σ → Prop} {act act' : Act σ α}

theorem agree_of_keeps (h : Keeps R act) : Agree P R act act := fun s _ => ⟨rfl, h s⟩

theorem Agree.keeps (h : Agree (fun _ => True) R act act') : Keeps R act := fun s => (h s trivial).2

theorem Agree.ite {p : Prop} [Decidable p] {other other' : Act σ α} (h : Agree P R act act')
    (h' : Agree P R other other') :
    Agree P R (if p then act else other) (if p then act' else other') := by
  split
  · exact h
  · exact h'

theorem Agree.attempt (h : Agree P R act act') : Agree P R (Act.attempt act) (Act.attempt act') := by
  intro s hs
  obtain ⟨hrun, ht⟩ := h s hs
  exact ⟨by simp only [Act.attempt, hrun], ht⟩

theorem Agree.within {enter : σ → σ} {leave : σ → σ → σ} (h : Agree P R act act')
    (henter : ∀ s, P s → P (enter s)) (hleave : ∀ s t, R (enter s) t → R s (leave s t)) :
    Agree P R (Act.within enter leave act) (Act.within enter leave act') := by
  intro s hs
  obtain ⟨hrun, ht⟩ := h (enter s) (henter s hs)
  exact ⟨by simp only [Act.within, hrun], hleave s _ ht⟩

variable [Stable P R]

theorem Agree.bind {f f' : α → Act σ β} (h : Agree P R act act') (hf : ∀ a, Agree P R (f a) (f' a)) :
    Agree P R (act >>= f) (act' >>= f') := by
  intro s hs
  obtain ⟨hrun, ht⟩ := h s hs
  match hact : act s with
  | (.ok a, t) =>
    rw [hact] at hrun ht
    rw [bind_ok hact, bind_ok hrun]
    obtain ⟨hnext, hu⟩ := hf a t (Stable.stable s t hs ht)
    exact ⟨hnext, IsTrans.trans _ _ _ ht hu⟩
  | (.error e, t) =>
    rw [hact] at hrun ht
    rw [bind_error hact, bind_error hrun]
    exact ⟨rfl, ht⟩

theorem agree_pure (a : α) : Agree P R (pure a) (pure a) := agree_of_keeps (keeps_pure a)

theorem agree_throw (e : Error) : Agree P R (throw e : Act σ α) (throw e) :=
  agree_of_keeps (keeps_throw e)

theorem agree_get : Agree P R (get : Act σ σ) get := agree_of_keeps keeps_get

theorem agree_lift (r : Except Error α) : Agree P R (liftM r : Act σ α) (liftM r) :=
  agree_of_keeps (keeps_lift r)

theorem Agree.mapM {γ : Type} {f f' : γ → Act σ β} {xs : List γ}
    (h : ∀ x ∈ xs, Agree P R (f x) (f' x)) : Agree P R (xs.mapM f) (xs.mapM f') := by
  induction xs with
  | nil => exact agree_pure _
  | cons x xs ih =>
    rw [List.mapM_cons, List.mapM_cons]
    exact (h x (by simp)).bind fun _ => (ih fun y hy => h y (by simp [hy])).bind fun _ =>
      agree_pure _

end

section

variable {R : σ → σ → Prop} [IsPreorder σ R]

theorem Keeps.bind {act : Act σ α} {f : α → Act σ β} (h : Keeps R act) (hf : ∀ a, Keeps R (f a)) :
    Keeps R (act >>= f) :=
  (Agree.bind (agree_of_keeps h) fun a => agree_of_keeps (hf a)).keeps

theorem Keeps.mapM {γ : Type} {f : γ → Act σ β} {xs : List γ} (h : ∀ x ∈ xs, Keeps R (f x)) :
    Keeps R (xs.mapM f) :=
  (Agree.mapM fun x hx => agree_of_keeps (h x hx)).keeps

theorem Keeps.forM {γ : Type} {f : γ → Act σ Unit} {xs : List γ} (h : ∀ x ∈ xs, Keeps R (f x)) :
    Keeps R (xs.forM f) := by
  induction xs with
  | nil => exact keeps_pure _
  | cons x xs ih =>
    change Keeps R (f x >>= fun _ => xs.forM f)
    exact (h x (by simp)).bind fun _ => ih fun y hy => h y (by simp [hy])

theorem Keeps.forIn {γ δ : Type} {f : γ → δ → Act σ (ForInStep δ)} {xs : List γ} {b : δ}
    (h : ∀ x ∈ xs, ∀ b, Keeps R (f x b)) : Keeps R (forIn xs b f) := by
  induction xs generalizing b with
  | nil => exact keeps_pure _
  | cons x xs ih =>
    rw [List.forIn_cons]
    refine (h x (by simp) b).bind fun r => ?_
    cases r with
    | done c => exact keeps_pure c
    | yield c => exact ih fun y hy => h y (by simp [hy])

end

/-! ## What actions end in -/

/-- Where the action succeeds in a state with `P`, it ends in one, and `Q` holds of the outcome. -/
def Ensures (P : σ → Prop) (act : Act σ α) (Q : α → Prop) : Prop :=
  ∀ s a t, P s → act s = (.ok a, t) → P t ∧ Q a

section

variable {P : σ → Prop} {act : Act σ α} {Q : α → Prop}

theorem ensures_pure {a : α} (h : Q a) : Ensures P (pure a) Q := by
  intro s b t hs hrun
  cases hrun
  exact ⟨hs, h⟩

theorem ensures_throw (e : Error) : Ensures P (throw e : Act σ α) Q := by
  intro s b t hs hrun
  cases hrun

theorem Ensures.mono {S : α → Prop} (h : Ensures P act Q) (hQ : ∀ a, Q a → S a) :
    Ensures P act S :=
  fun s a t hs hrun => (h s a t hs hrun).imp_right (hQ a)

theorem Ensures.bind {f : α → Act σ β} {S : β → Prop} (h : Ensures P act Q)
    (hf : ∀ a, Q a → Ensures P (f a) S) : Ensures P (act >>= f) S := by
  intro s b u hs hrun
  obtain ⟨a, t, hact, hnext⟩ := bind_eq_ok.mp hrun
  obtain ⟨ht, ha⟩ := h s a t hs hact
  exact hf a ha t b u ht hnext

theorem Ensures.ite {p : Prop} [Decidable p] {act' : Act σ α} (h : Ensures P act Q)
    (h' : Ensures P act' Q) : Ensures P (if p then act else act') Q := by
  split
  · exact h
  · exact h'

theorem Ensures.mapM {γ : Type} {f : γ → Act σ β} {S : β → Prop} {xs : List γ}
    (h : ∀ x ∈ xs, Ensures P (f x) S) : Ensures P (xs.mapM f) fun ys => ∀ y ∈ ys, S y := by
  induction xs with
  | nil => exact ensures_pure (by simp)
  | cons x xs ih =>
    rw [List.mapM_cons]
    refine (h x (by simp)).bind fun y hy => (ih fun z hz => h z (by simp [hz])).bind fun ys hys =>
      ensures_pure ?_
    simpa using ⟨hy, hys⟩

end

end Act

end TreeMacros
