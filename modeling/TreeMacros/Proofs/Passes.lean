import TreeMacros.Proofs.Rebuild

/-!
# Passes over trees

What a pass makes of a node, given what its visits to the children give. A pass that notes its
changes in a journal makes the same of a tree as one that does not, but for labels.
-/

namespace TreeMacros

open Value hiding none set
open Attrs (erase get? get?_set isHidden)

variable {xs : List Value} {as : Attrs} {name : String} {v : Value} {k : Kind}

/-- The kind of the error that an outcome is, if it is one. -/
def errorKind? {α : Type} (r : Except Error α) : Option ErrorKind :=
  match r with
  | .ok _ => none
  | .error e => some e.kind

theorem except_bind_eq_ok {α β : Type} {e : Except Error α} {f : α → Except Error β} {b : β} :
    (e >>= f) = .ok b ↔ ∃ a, e = .ok a ∧ f a = .ok b := by
  cases e <;> simp [bind, Except.bind]

theorem except_bind_of_ok {α β : Type} {e : Except Error α} {f : α → Except Error β} {a : α} {b : β}
    (h : e = .ok a) (hf : f a = .ok b) : (e >>= f) = .ok b := except_bind_eq_ok.mpr ⟨a, h, hf⟩

theorem exists_of_mapM_cons {α β : Type} {f : α → Except Error β} {x : α} {xs : List α} {ys : List β}
    (h : (x :: xs).mapM f = .ok ys) : ∃ y zs, f x = .ok y ∧ xs.mapM f = .ok zs ∧ ys = y :: zs := by
  rw [List.mapM_cons] at h
  obtain ⟨y, hy, h⟩ := except_bind_eq_ok.mp h
  obtain ⟨zs, hzs, h⟩ := except_bind_eq_ok.mp h
  cases h
  exact ⟨y, zs, hy, hzs, rfl⟩

theorem except_mapM_bind {α β γ : Type} {f : α → Except Error β} {g : β → Except Error γ}
    {h : β → γ} {xs : List α} {ys : List β} (hf : xs.mapM f = .ok ys)
    (hg : ∀ y ∈ ys, g y = .ok (h y)) : xs.mapM (fun x => f x >>= g) = .ok (ys.map h) := by
  induction xs generalizing ys with
  | nil =>
    cases hf
    rfl
  | cons x xs ih =>
    obtain ⟨y, ys, hy, hys, rfl⟩ := exists_of_mapM_cons hf
    have hhere : (f x >>= g) = .ok (h y) := by
      rw [hy]
      exact hg y (by simp)
    rw [List.mapM_cons, hhere, ih hys fun z hz => hg z (by simp [hz])]
    rfl

theorem map_ok_of_mapM {α β : Type} {f : α → Except Error β} {xs : List α} {ys : List β}
    (h : xs.mapM f = .ok ys) : ys.map .ok = xs.map f := by
  induction xs generalizing ys with
  | nil =>
    cases h
    rfl
  | cons x xs ih =>
    obtain ⟨y, ys, hy, hys, rfl⟩ := exists_of_mapM_cons h
    rw [List.map_cons, List.map_cons, hy, ih hys]

namespace Value

/-! ## Replacing children -/

/-- The attributes after the nodes in one of them, which holds `v`, have been replaced. -/
def replaceAt (g : Value → Value) (as : Attrs) (name : String) (v : Value) : Attrs :=
  match v with
  | node .. => if (g v).isNone then erase as name else Attrs.set as name (g v)
  | list xs =>
    Attrs.set as name (list (xs.flatMap fun u => if u.isNode then spliced (g u) else [u]))
  | _ => as

/-- The attributes `bs` with what has become of the children among the attributes `as`. -/
def replaceFrom (g : Value → Value) (k : Kind) (as bs : Attrs) : Attrs :=
  k.fieldNames.foldl (fun bs name =>
    match get? as name with
    | some v => replaceAt g bs name v
    | .none => bs) bs

/-- The attributes of a node after its children have been replaced. -/
def replaceChildren (g : Value → Value) (k : Kind) (as : Attrs) : Attrs := replaceFrom g k as as

/-- The attributes of a node with the outcomes for its children in their places. -/
def gather (k : Kind) (as : Attrs) (parts : Parts Value) : Attrs :=
  k.fieldNames.foldl (fun bs name =>
    match parts.lookup name with
    | some p =>
      match p.value with
      | node .. => if p.result.isNone then erase bs name else Attrs.set bs name p.result
      | list _ =>
        Attrs.set bs name (list (p.items.flatMap fun i =>
          if i.value.isNode then i.result.spliced else [i.value]))
      | _ => bs
    | .none => bs) as

theorem gather_foldAttrs (onNode : Kind → Attrs → Parts Value → Value)
    (onRest : Value → List (Item Value) → List (Item Value) → Value) (k : Kind) (as : Attrs) :
    gather k as (foldAttrs onNode onRest as) = replaceChildren (fold onNode onRest) k as := by
  unfold gather replaceChildren replaceFrom
  congr 1
  funext bs name
  rw [lookup_foldAttrs]
  cases get? as name with
  | none => rfl
  | some v =>
    cases v with
    | list xs =>
      simp only [Option.map_some, foldPart, foldItems_eq, List.flatMap_map]
      rfl
    | _ => rfl

theorem replaceChildren_id (k : Kind) (as : Attrs) : replaceChildren (fun u => u) k as = as := by
  have hsame : ∀ name v, get? as name = some v → replaceAt (fun u => u) as name v = as := by
    intro name v hv
    cases v with
    | node j cs => exact Attrs.set_eq_self hv
    | list xs =>
      have hxs : (xs.flatMap fun u => if u.isNode then spliced u else [u]) = xs := by
        refine Eq.trans (List.flatMap_congr fun u _ => ?_) (List.flatMap_singleton' xs)
        cases u <;> rfl
      rw [replaceAt, hxs]
      exact Attrs.set_eq_self hv
    | _ => rfl
  unfold replaceChildren replaceFrom
  generalize k.fieldNames = names
  induction names with
  | nil => rfl
  | cons name names ih =>
    rw [List.foldl_cons]
    cases hv : get? as name with
    | none => exact ih
    | some v =>
      simp only [hsame name v hv]
      exact ih

end Value

/-- A sense in which actions that change trees have results: each step of a sequence starts from the
result of the one before. -/
structure Giving (m : Type → Type) [Monad m] [Editing m] where
  gives : {α : Type} → m α → α → Prop
  pure : ∀ {α : Type} (a : α), gives (Pure.pure a) a
  bind : ∀ {α β : Type} {act : m α} {f : α → m β} {a : α} {b : β},
    gives act a → gives (f a) b → gives (act >>= f) b
  assign : ∀ as name v, gives (Editing.assign as name v) (Attrs.set as name v)
  unset : ∀ as name, gives (Editing.unset as name) (erase as name)
  refill : ∀ as name xs, gives (Editing.refill as name xs) (Attrs.set as name (.list xs))

namespace Giving

open Value

def ok : Giving (Except Error) where
  gives act a := act = .ok a
  pure _ := rfl
  bind := except_bind_of_ok
  assign _ _ _ := rfl
  unset _ _ := rfl
  refill _ _ _ := rfl

/-- Success in every state, which stays as it is. -/
def unchanged (σ : Type) : Giving (StateT σ (Except Error)) where
  gives act a := act = Pure.pure a
  pure _ := rfl
  bind h hf := by rw [h, pure_bind, hf]
  assign _ _ _ := rfl
  unset _ _ := rfl
  refill _ _ _ := rfl

def always (σ : Type) : Giving (StateT σ (Except Error)) where
  gives act a := ∀ s, ∃ t, act.run s = .ok (a, t)
  pure a s := ⟨s, rfl⟩
  bind h hf s := by
    obtain ⟨t, ht⟩ := h s
    obtain ⟨u, hu⟩ := hf t
    exact ⟨u, by rw [StateT.run_bind, ht]; exact hu⟩
  assign _ _ _ s := ⟨s, rfl⟩
  unset _ _ s := ⟨s, rfl⟩
  refill _ _ _ s := ⟨s, rfl⟩

variable {m : Type → Type} [Monad m] [LawfulMonad m] [MonadExceptOf Error m] [Editing m]
  {β : Type} {onNode : Kind → Attrs → Parts β → β}
  {onRest : Value → List (Item β) → List (Item β) → β} {visit : β → m Value} {g : Value → Value}
  (G : Giving m)

omit [MonadExceptOf Error m] in
theorem mapM {α γ : Type} {f : α → m γ} {h : α → γ} {xs : List α}
    (hf : ∀ x ∈ xs, G.gives (f x) (h x)) : G.gives (xs.mapM f) (xs.map h) := by
  induction xs with
  | nil => exact G.pure _
  | cons x xs ih =>
    rw [List.mapM_cons]
    exact G.bind (hf x (by simp)) (G.bind (ih fun y hy => hf y (by simp [hy])) (G.pure _))

private theorem rebuildList (h : ∀ u ∈ xs, u.isNode →
      G.gives (visit (fold onNode onRest u)) (g u) ∧ (g u).isPiece) :
    G.gives (rebuildList (fun i => visit i.result) (foldItems onNode onRest xs))
      (xs.flatMap fun u => if u.isNode then spliced (g u) else [u]) := by
  induction xs with
  | nil => exact G.pure []
  | cons u xs ih =>
    have htail := ih fun v hv => h v (by simp [hv])
    rw [foldItems, List.flatMap_cons]
    cases hu : u.isNode with
    | true =>
      obtain ⟨hvisit, hpiece⟩ := h u (by simp) hu
      rw [rebuildList_cons_node _ _ hu, if_pos rfl]
      refine G.bind hvisit ?_
      rw [replacement_of_isPiece hpiece]
      exact G.bind (G.pure _) (G.bind htail (G.pure _))
    | false =>
      rw [rebuildList_cons_other _ _ hu, if_neg Bool.false_ne_true]
      exact G.bind htail (G.pure _)

theorem rebuildAttr (bs : Attrs) (hv : get? as name = some v) (h : ∀ u ∈ childrenAt as name,
      G.gives (visit (fold onNode onRest u)) (g u) ∧ (g u).isPiece) :
    G.gives (rebuildAttr (fun i => visit i.result) bs name (foldPart onNode onRest v))
      (replaceAt g bs name v) := by
  cases v with
  | node k cs =>
    obtain ⟨hvisit, -⟩ := h (node k cs) (mem_childrenAt.mpr ⟨rfl, .inl hv⟩)
    refine G.bind hvisit ?_
    rw [replaceAt]
    cases g (node k cs) with
    | none => exact G.unset bs name
    | _ => exact G.assign bs name _
  | list xs =>
    exact G.bind (G.rebuildList fun u hu hn => h u (mem_childrenAt.mpr ⟨hn, .inr ⟨xs, hv, hu⟩⟩))
      (G.refill bs name _)
  | _ => exact G.pure bs

/-- A pass whose visits succeed replaces the children of a node. The node may have got other
attributes before. -/
theorem rebuild_from (visit : String → β → m Value) (bs : Attrs)
    (h : ∀ name ∈ k.fieldNames, ∀ u ∈ childrenAt as name,
      G.gives (visit name (fold onNode onRest u)) (g u) ∧ (g u).isPiece) :
    G.gives (rebuild (fun name (i : Item β) => visit name i.result) k bs
      (foldAttrs onNode onRest as)) (node k (replaceFrom g k as bs)) := by
  have hgo : ∀ names, (∀ f ∈ names, f ∈ k.fieldNames) → ∀ bs,
      G.gives (rebuild.go (fun name (i : Item β) => visit name i.result)
        (foldAttrs onNode onRest as) names bs) (names.foldl (fun bs name =>
          match get? as name with
          | some v => replaceAt g bs name v
          | .none => bs) bs) := by
    intro names hnames
    induction names with
    | nil => exact fun bs => G.pure bs
    | cons name names ih =>
      intro bs
      have hnext := ih fun f hf => hnames f (by simp [hf])
      rw [rebuild.go, lookup_foldAttrs, List.foldl_cons]
      cases hv : get? as name with
      | none => exact hnext bs
      | some v => exact G.bind (G.rebuildAttr bs hv (h name (hnames name (by simp)))) (hnext _)
  exact G.bind (hgo _ (fun _ hf => hf) bs) (G.pure _)

theorem rebuild (visit : β → m Value) (h : ∀ u ∈ children k as,
      G.gives (visit (fold onNode onRest u)) (g u) ∧ (g u).isPiece) :
    G.gives (rebuild (fun _ (i : Item β) => visit i.result) k as (foldAttrs onNode onRest as))
      (node k (replaceChildren g k as)) :=
  G.rebuild_from (fun _ => visit) as fun name hname u hu => h u (mem_children.mpr ⟨name, hname, hu⟩)

theorem rebuild_of_same (visit : String → β → m Value)
    (h : ∀ name ∈ k.fieldNames, ∀ u ∈ childrenAt as name,
      G.gives (visit name (fold onNode onRest u)) u) :
    G.gives (Value.rebuild (fun name (i : Item β) => visit name i.result) k as
      (foldAttrs onNode onRest as)) (node k as) := by
  have hrun := G.rebuild_from (g := fun u => u) visit as fun name hname u hu =>
    ⟨h name hname u hu, by simp [isPiece, (mem_childrenAt.mp hu).1]⟩
  rwa [← replaceChildren, replaceChildren_id] at hrun

end Giving

theorem except_mapM_of_ok {α β : Type} {f : α → Except Error β} {g : α → β} {xs : List α}
    (h : ∀ x ∈ xs, f x = .ok (g x)) : xs.mapM f = .ok (xs.map g) := Giving.ok.mapM h

namespace Value

section

variable {β : Type} {onNode : Kind → Attrs → Parts β → β}
  {onRest : Value → List (Item β) → List (Item β) → β} {visit : β → Except Error Value}

/-! A pass that succeeds has visited all children. -/

private theorem exists_of_rebuildList {ys : List Value}
    (h : rebuildList (fun i => visit i.result) (foldItems onNode onRest xs) = .ok ys) :
    ∀ u ∈ xs, u.isNode → ∃ c, visit (fold onNode onRest u) = .ok c := by
  induction xs generalizing ys with
  | nil => simp
  | cons x xs ih =>
    intro u hu hn
    rw [foldItems] at h
    cases hx : x.isNode with
    | true =>
      rw [rebuildList_cons_node _ _ hx] at h
      obtain ⟨c, hc, h⟩ := except_bind_eq_ok.mp h
      obtain ⟨here, -, h⟩ := except_bind_eq_ok.mp h
      obtain ⟨rest, hrest, -⟩ := except_bind_eq_ok.mp h
      rcases List.mem_cons.mp hu with rfl | hu
      · exact ⟨c, hc⟩
      · exact ih hrest u hu hn
    | false =>
      rw [rebuildList_cons_other _ _ hx] at h
      obtain ⟨rest, hrest, -⟩ := except_bind_eq_ok.mp h
      rcases List.mem_cons.mp hu with rfl | hu
      · simp [hx] at hn
      · exact ih hrest u hu hn

private theorem exists_of_rebuildAttr {bs cs : Attrs} (hv : get? as name = some v)
    (h : rebuildAttr (fun i => visit i.result) bs name (foldPart onNode onRest v) = .ok cs) :
    ∀ u ∈ childrenAt as name, ∃ c, visit (fold onNode onRest u) = .ok c := by
  intro u hu
  obtain ⟨hn, hget | ⟨xs, hget, hmem⟩⟩ := mem_childrenAt.mp hu
  · cases hv.symm.trans hget
    cases v with
    | node =>
      obtain ⟨c, hc, -⟩ := except_bind_eq_ok.mp h
      exact ⟨c, hc⟩
    | _ => cases hn
  · cases hv.symm.trans hget
    obtain ⟨ys, hys, -⟩ := except_bind_eq_ok.mp h
    exact exists_of_rebuildList hys u hmem hn

theorem exists_of_rebuild (visit : β → Except Error Value) {r : Value}
    (h : rebuild (fun _ (i : Item β) => visit i.result) k as (foldAttrs onNode onRest as) = .ok r) :
    ∀ u ∈ children k as, ∃ c, visit (fold onNode onRest u) = .ok c := by
  have hgo : ∀ names bs cs, rebuild.go (fun _ (i : Item β) => visit i.result)
      (foldAttrs onNode onRest as) names bs = .ok cs →
      ∀ f ∈ names, ∀ u ∈ childrenAt as f, ∃ c, visit (fold onNode onRest u) = .ok c := by
    intro names
    induction names with
    | nil => simp
    | cons name names ih =>
      intro bs cs h f hf u hu
      rw [rebuild.go, lookup_foldAttrs] at h
      cases hv : get? as name with
      | none =>
        rw [hv] at h
        rcases List.mem_cons.mp hf with rfl | hf
        · simp [childrenAt, hv] at hu
        · exact ih bs cs h f hf u hu
      | some v =>
        rw [hv] at h
        obtain ⟨ds, hds, h⟩ := except_bind_eq_ok.mp h
        rcases List.mem_cons.mp hf with rfl | hf
        · exact exists_of_rebuildAttr hv hds u hu
        · exact ih ds cs h f hf u hu
  intro u hu
  obtain ⟨f, hf, hu⟩ := mem_children.mp hu
  obtain ⟨bs, hbs, -⟩ := except_bind_eq_ok.mp h
  exact hgo _ _ _ hbs f hf u hu

end

end Value

/-! ## Passes with a journal -/

section

variable {α β γ δ : Type}

/-- The action succeeds in every state, and `Q` holds of the outcome. -/
def Act.Yields (act : Expansion α) (Q : α → Prop) : Prop := ∀ w, ∃ a t, act w = (.ok a, t) ∧ Q a

namespace Act

theorem yields_pure {Q : α → Prop} {a : α} (h : Q a) : Yields (pure a) Q :=
  fun w => ⟨a, w, rfl, h⟩

theorem Yields.bind {act : Expansion α} {Q : α → Prop} {f : α → Expansion β} {S : β → Prop}
    (h : Yields act Q) (hf : ∀ a, Q a → Yields (f a) S) : Yields (act >>= f) S := by
  intro w
  obtain ⟨a, t, hact, ha⟩ := h w
  obtain ⟨b, u, hb, hS⟩ := hf a ha t
  exact ⟨b, u, (bind_ok hact).trans hb, hS⟩

theorem Yields.mono {act : Expansion α} {Q S : α → Prop} (h : Yields act Q)
    (hQ : ∀ a, Q a → S a) : Yields act S := by
  intro w
  obtain ⟨a, t, hact, ha⟩ := h w
  exact ⟨a, t, hact, hQ a ha⟩

theorem Yields.ite {p : Prop} [Decidable p] {act act' : Expansion α} {Q : α → Prop}
    (h : Yields act Q) (h' : Yields act' Q) : Yields (if p then act else act') Q := by
  split
  · exact h
  · exact h'

theorem yields_note (c : Change) : Yields (note c) fun _ => True :=
  fun _ => ⟨(), _, rfl, trivial⟩

theorem yields_welcome (v : Value) : Yields (welcome v) fun u => u.unlabelled = v.unlabelled := by
  unfold welcome
  split
  · exact yields_pure rfl
  · exact fun w => ⟨_, _, label_run v w, unlabelled_labelled v _⟩

theorem yields_mapM_welcome (xs : List Value) : Yields (xs.mapM welcome) fun ys =>
    ys.map unlabelled = xs.map unlabelled := by
  induction xs with
  | nil => exact yields_pure rfl
  | cons x xs ih =>
    rw [List.mapM_cons]
    refine (yields_welcome x).bind fun y hy => ih.bind fun ys hys => yields_pure ?_
    rw [List.map_cons, List.map_cons, hy, hys]

end Act

open Act (Yields yields_pure yields_note yields_welcome yields_mapM_welcome)

variable {as bs : Attrs} {name : String}

theorem yields_assign (hname : isHidden name = false) (as : Attrs) (v : Value) :
    Yields (Act.assign as name v) fun bs => unlabelledAttrs bs =
      Attrs.set (unlabelledAttrs as) name v.unlabelled := by
  have hset {u : Value} (hu : u.unlabelled = v.unlabelled) :
      unlabelledAttrs (Attrs.set as name u) =
        Attrs.set (unlabelledAttrs as) name v.unlabelled := by
    simp [unlabelledAttrs_set, hname, hu]
  unfold Act.assign
  split
  · exact yields_pure (hset rfl)
  · refine (yields_welcome v).bind fun u hu => ?_
    dsimp only
    split
    · refine Yields.bind (Q := fun _ => True) (fun _ => ⟨_, _, rfl, trivial⟩) fun own _ =>
        (yields_note _).bind fun _ _ => (yields_note _).bind fun _ _ => yields_pure ?_
      rw [unlabelledAttrs_set, if_pos (Attrs.isHidden_listLabelName name)]
      exact hset hu
    · exact Yields.ite ((yields_note _).bind fun _ _ => yields_pure (hset hu))
        (yields_pure (hset hu))

theorem yields_refill (hname : isHidden name = false) (as : Attrs) (xs : List Value) :
    Yields (Act.refill as name xs) fun bs => unlabelledAttrs bs =
      Attrs.set (unlabelledAttrs as) name (.list (xs.map unlabelled)) := by
  have hset {ys : List Value} (hys : ys.map unlabelled = xs.map unlabelled) :
      unlabelledAttrs (Attrs.set as name (.list ys)) =
        Attrs.set (unlabelledAttrs as) name (.list (xs.map unlabelled)) := by
    simp [unlabelledAttrs_set, hname, unlabelled, unlabelledItems_eq, hys]
  unfold Act.refill
  split
  · exact yields_pure (hset rfl)
  · refine (yields_mapM_welcome xs).bind fun ys hys => ?_
    exact Yields.ite ((yields_note _).bind fun _ _ => yields_pure (hset hys))
      (yields_pure (hset hys))

/-- In every state, the action fails as `e` does, or its outcome is related to that of `e`. -/
structure Mirrors (P : α → β → Prop) (act : Expansion α) (e : Except Error β) : Prop where
  ok : ∀ w a t, act w = (.ok a, t) → ∃ b, e = .ok b ∧ P a b
  error : ∀ w err t, act w = (.error err, t) → e = .error err

theorem mirrors_pure {P : α → β → Prop} {a : α} {b : β} (h : P a b) :
    Mirrors P (pure a) (.ok b) := by
  constructor
  · rintro w c t hrun
    cases hrun
    exact ⟨b, rfl, h⟩
  · rintro w err t hrun
    cases hrun

theorem mirrors_throw {P : α → β → Prop} (err : Error) :
    Mirrors P (throw err : Expansion α) (.error err) := by
  constructor
  · rintro w c t hrun
    cases hrun
  · rintro w err t hrun
    cases hrun
    rfl

theorem Act.Yields.mirrors {act : Expansion α} {Q : α → Prop} {P : α → β → Prop} {b : β}
    (h : Yields act Q) (hP : ∀ a, Q a → P a b) : Mirrors P act (.ok b) := by
  constructor
  · intro w a t hrun
    obtain ⟨c, u, hact, hc⟩ := h w
    cases hact.symm.trans hrun
    exact ⟨b, rfl, hP a hc⟩
  · intro w err t hrun
    obtain ⟨c, u, hact, -⟩ := h w
    cases hact.symm.trans hrun

theorem Mirrors.mono {P Q : α → β → Prop} {act : Expansion α} {e : Except Error β}
    (h : Mirrors P act e) (hPQ : ∀ a b, P a b → Q a b) : Mirrors Q act e := by
  refine ⟨fun w a t hrun => ?_, h.error⟩
  obtain ⟨b, hb, hP⟩ := h.ok w a t hrun
  exact ⟨b, hb, hPQ a b hP⟩

theorem Mirrors.bind {P : α → β → Prop} {Q : γ → δ → Prop} {act : Expansion α}
    {e : Except Error β} {f : α → Expansion γ} {g : β → Except Error δ} (h : Mirrors P act e)
    (hf : ∀ a b, P a b → Mirrors Q (f a) (g b)) : Mirrors Q (act >>= f) (e >>= g) := by
  constructor
  · intro w c t hrun
    obtain ⟨a, u, ha, hrun⟩ := Act.bind_eq_ok.mp hrun
    obtain ⟨b, rfl, hb⟩ := h.ok w a u ha
    exact (hf a b hb).ok u c t hrun
  · intro w err t hrun
    match hact : act w with
    | (.ok a, u) =>
      rw [Act.bind_ok hact] at hrun
      obtain ⟨b, rfl, hb⟩ := h.ok w a u hact
      exact (hf a b hb).error u err t hrun
    | (.error err', u) =>
      rw [Act.bind_error hact] at hrun
      cases hrun
      rw [h.error w err _ hact]
      rfl

def Unlabels (v u : Value) : Prop := v.unlabelled = u ∧ u.isNode = true

end

namespace Value

section

variable {β γ : Type} {onNode : Kind → Attrs → Parts β → β}
  {onRest : Value → List (Item β) → List (Item β) → β} {visit : β → Expansion Value}
  {onNode' : Kind → Attrs → Parts γ → γ}
  {onRest' : Value → List (Item γ) → List (Item γ) → γ} {visit' : γ → Except Error Value}

theorem mirrors_mapM_unlabelled {f : Value → Expansion Value} {g : Value → Except Error Value}
    (h : ∀ u ∈ xs, Mirrors (fun r s => r.unlabelled = s) (f u) (g u.unlabelled)) :
    Mirrors (fun (rs ss : List Value) => rs.map unlabelled = ss) (xs.mapM f)
      ((xs.map unlabelled).mapM g) := by
  induction xs with
  | nil => exact mirrors_pure rfl
  | cons u xs ih =>
    rw [List.map_cons, List.mapM_cons, List.mapM_cons]
    refine (h u (by simp)).bind fun r s hrs => (ih fun y hy => h y (by simp [hy])).bind
      fun rs ss hss => mirrors_pure ?_
    rw [List.map_cons, hrs, hss]

private theorem mirrors_rebuildList
    (h : ∀ u ∈ xs, u.isNode → Mirrors Unlabels (visit (fold onNode onRest u))
      (visit' (fold onNode' onRest' u.unlabelled))) :
    Mirrors (fun ys zs => ys.map unlabelled = zs)
      (rebuildList (fun i => visit i.result) (foldItems onNode onRest xs))
      (rebuildList (fun i => visit' i.result) (foldItems onNode' onRest' (xs.map unlabelled))) := by
  induction xs with
  | nil => exact mirrors_pure rfl
  | cons u xs ih =>
    have htail := ih fun v hv => h v (by simp [hv])
    rw [List.map_cons, foldItems, foldItems]
    cases hu : u.isNode with
    | true =>
      have hu' : u.unlabelled.isNode := by rw [isNode_unlabelled, hu]
      rw [rebuildList_cons_node _ _ hu, rebuildList_cons_node _ _ hu']
      refine (h u (by simp) hu).bind fun a b hab => ?_
      obtain ⟨rfl, hb⟩ := hab
      rw [isNode_unlabelled] at hb
      cases a with
      | node k as =>
        refine Mirrors.bind (P := fun ys zs => ys.map unlabelled = zs) (mirrors_pure ?_)
          fun ys zs hzs => htail.bind fun ys' zs' hzs' => mirrors_pure ?_
        · rfl
        · rw [List.map_append, hzs, hzs']
      | _ => cases hb
    | false =>
      have hu' : u.unlabelled.isNode = false := by rw [isNode_unlabelled, hu]
      rw [rebuildList_cons_other _ _ hu, rebuildList_cons_other _ _ hu']
      refine htail.bind fun ys zs hzs => mirrors_pure ?_
      rw [List.map_cons, hzs]

private theorem mirrors_rebuildAttr {bs : Attrs} (hname : isHidden name = false)
    (hv : get? as name = some v)
    (h : ∀ u ∈ childrenAt as name, Mirrors Unlabels (visit (fold onNode onRest u))
      (visit' (fold onNode' onRest' u.unlabelled))) :
    Mirrors (fun bs cs => unlabelledAttrs bs = cs)
      (rebuildAttr (fun i => visit i.result) bs name (foldPart onNode onRest v))
      (rebuildAttr (fun i => visit' i.result) (unlabelledAttrs bs) name
        (foldPart onNode' onRest' v.unlabelled)) := by
  cases v with
  | node k cs =>
    have hchild := h _ (mem_childrenAt.mpr ⟨rfl, .inl hv⟩)
    simp only [unlabelled] at hchild ⊢
    refine hchild.bind fun a b hab => ?_
    obtain ⟨rfl, hb⟩ := hab
    rw [isNode_unlabelled] at hb
    cases a with
    | node j ds => exact (yields_assign hname bs (node j ds)).mirrors fun _ h => h
    | _ => cases hb
  | list xs =>
    simp only [unlabelled, unlabelledItems_eq]
    refine (mirrors_rebuildList fun u hu hn =>
      h u (mem_childrenAt.mpr ⟨hn, .inr ⟨xs, hv, hu⟩⟩)).bind fun ys zs hzs => ?_
    subst hzs
    exact (yields_refill hname bs ys).mirrors fun _ h => h
  | _ => exact mirrors_pure rfl

/-- Where the visits to the children mirror each other, so do the passes over a node, which may
have got other attributes before. -/
theorem mirrors_rebuild_from (visit : String → β → Expansion Value)
    (visit' : String → γ → Except Error Value) (bs : Attrs)
    (h : ∀ name ∈ k.fieldNames, ∀ u ∈ childrenAt as name,
      Mirrors Unlabels (visit name (fold onNode onRest u))
        (visit' name (fold onNode' onRest' u.unlabelled))) :
    Mirrors Unlabels
      (rebuild (fun name (i : Item β) => visit name i.result) k bs (foldAttrs onNode onRest as))
      (rebuild (fun name (i : Item γ) => visit' name i.result) k (unlabelledAttrs bs)
        (foldAttrs onNode' onRest' (unlabelledAttrs as))) := by
  have hgo : ∀ names, (∀ f ∈ names, f ∈ k.fieldNames) → ∀ bs,
      Mirrors (fun bs cs => unlabelledAttrs bs = cs)
        (rebuild.go (fun name (i : Item β) => visit name i.result) (foldAttrs onNode onRest as)
          names bs)
        (rebuild.go (fun name (i : Item γ) => visit' name i.result)
          (foldAttrs onNode' onRest' (unlabelledAttrs as)) names (unlabelledAttrs bs)) := by
    intro names hnames
    induction names with
    | nil => exact fun _ => mirrors_pure rfl
    | cons name names ih =>
      intro bs
      have hfield := hnames name (by simp)
      have hnext := ih fun f hf => hnames f (by simp [hf])
      have hhidden := Kind.isHidden_of_mem hfield
      rw [rebuild.go, rebuild.go, lookup_foldAttrs, lookup_foldAttrs, get?_unlabelledAttrs hhidden]
      cases hv : get? as name with
      | none => exact hnext bs
      | some v =>
        refine (mirrors_rebuildAttr hhidden hv (h name hfield)).bind fun cs ds hds => ?_
        subst hds
        exact hnext cs
  refine (hgo _ (fun _ hf => hf) bs).bind fun bs cs hcs => mirrors_pure ⟨?_, rfl⟩
  rw [unlabelled, hcs]

theorem mirrors_rebuild (visit : β → Expansion Value) (visit' : γ → Except Error Value)
    (h : ∀ u ∈ children k as, Mirrors Unlabels (visit (fold onNode onRest u))
      (visit' (fold onNode' onRest' u.unlabelled))) :
    Mirrors Unlabels
      (rebuild (fun _ (i : Item β) => visit i.result) k as (foldAttrs onNode onRest as))
      (rebuild (fun _ (i : Item γ) => visit' i.result) k (unlabelledAttrs as)
        (foldAttrs onNode' onRest' (unlabelledAttrs as))) :=
  mirrors_rebuild_from (fun _ => visit) (fun _ => visit') as fun name hname u hu =>
    h u (mem_children.mpr ⟨name, hname, hu⟩)

end

end Value

end TreeMacros
