import TreeMacros.Proofs.Detection

/-!
# What is collected

A collection finds nothing in a tree without invocations outside of what is marked as done. It
finds something in a tree that is itself an invocation.
-/

namespace TreeMacros

open Value hiding none set
open Attrs (get?)
open Act (bind_eq_ok bind_ok keeps_pure lift_bind_eq_ok lift_bind_ok)
open Act (Ensures ensures_pure ensures_throw Keeps)

variable {name v items : Value} {field : String} {form : Form}

namespace Expander

variable {x : Expander} {w t : World} {k : Kind} {as : Attrs}

/-- No tree that a visit comes to is an invocation. -/
def isFree (x : Expander) (w : World) (v : Value) : Bool :=
  v.throughout (fun k => k != .done && k != .name) fun k as => !x.isInvocation w (.node k as)

theorem isFree_congr (h : x.known? w = x.known? t) (v : Value) : x.isFree w v = x.isFree t v := by
  simp only [isFree, isInvocation_congr h]

theorem isFree_node : x.isFree w (.node k as) ↔ x.isInvocation w (.node k as) = false ∧
    (k ≠ .done → k ≠ .name → ∀ u ∈ children k as, x.isFree w u) := by
  rw [isFree, throughout_node]
  simp only [Bool.not_eq_true', Bool.and_eq_true, bne_iff_ne, and_imp]
  rfl

theorem isFree_list {xs : List Value} :
    x.isFree w (.list xs) ↔ ∀ u ∈ xs, x.isFree w u :=
  throughout_list

theorem isFree_done (x : Expander) (w : World) (as : Attrs) :
    x.isFree w (.node .done as) :=
  isFree_node.mpr ⟨rfl, fun h => absurd rfl h⟩

/-! ## Where nothing is known -/

def KnowsNothing (x : Expander) (w : World) : Prop := ∀ name, x.known? w name = none

theorem knowsNothing_of_isIdle (h : x.isIdle w) : x.KnowsNothing w := by
  simp only [isIdle, Bool.and_eq_true, List.isEmpty_iff] at h
  intro name
  simp [known?, find?, h.1, h.2, Bindings.get?]

theorem isIdle_of_known? {name : String} {b : Binding} (h : x.known? w name = some b) :
    x.isIdle w = false := by
  cases hidle : x.isIdle w with
  | false => rfl
  | true =>
    rw [knowsNothing_of_isIdle hidle] at h
    cases h

private theorem ensures_invocable?_none (x : Expander) (name : Value) :
    Ensures x.KnowsNothing (x.invocable? name) (· = none) := by
  intro w b t hw hrun
  rw [invocable?_run] at hrun
  split at hrun
  · cases hrun
  · cases hrun
    refine ⟨hw, ?_⟩
    cases name with
    | str s => exact hw s
    | _ => rfl

private theorem ensures_isCall_false (x : Expander) (name args : Value) (form : Form) :
    Ensures x.KnowsNothing (x.isCall name args form) (· = false) := by
  refine (ensures_invocable?_none x name).bind fun b hb => ?_
  subst hb
  exact ensures_pure rfl

private theorem ensures_lift {α : Type} {P : World → Prop} (r : Except Error α) :
    Ensures P (liftM r : Expansion α) fun _ => True := by
  intro w a t hw hrun
  cases hrun
  exact ⟨hw, trivial⟩

private theorem ensures_isMacroItem_false (x : Expander) (form : Form) (item : Value) :
    Ensures x.KnowsNothing (x.isMacroItem form item) (· = false) := by
  refine (ensures_lift _).bind fun _ _ => (ensures_lift _).bind fun c _ => ?_
  rcases c with _ | ⟨name, args⟩
  · exact ensures_pure rfl
  · refine (ensures_invocable?_none x name).bind fun b hb => ?_
    subst hb
    exact ensures_pure rfl

private theorem ensures_detect_false (x : Expander) (form : Form) (items : Value) :
    Ensures x.KnowsNothing (x.detect form items) fun ds => ∀ d ∈ ds, d.2 = false := by
  refine (ensures_lift _).bind fun xs _ => Ensures.mapM fun item _ => ?_
  exact (ensures_isMacroItem_false x form item).bind fun b hb => ensures_pure hb

private theorem ensures_invokes_false (x : Expander) (v : Value) :
    Ensures x.KnowsNothing (x.invokes v) (· = false) := by
  have hitems (form : Form) (items : Value) : Ensures x.KnowsNothing
      (do return (← x.detect form items).any (·.2)) (· = false) :=
    (ensures_detect_false x form items).bind fun ds hds => ensures_pure (by simpa using hds)
  unfold invokes
  split
  · refine (ensures_lift _).bind fun _ _ => (ensures_lift _).bind fun c _ => ?_
    rcases c with _ | ⟨name, args⟩
    · exact ensures_pure rfl
    · exact ensures_isCall_false x name args .expr
  · exact (ensures_lift _).bind fun _ _ => hitems _ _
  · exact (ensures_lift _).bind fun _ _ => hitems _ _
  · exact (ensures_lift _).bind fun _ _ => hitems _ _
  · exact (ensures_lift _).bind fun _ _ => ensures_isCall_false x _ _ _
  · exact ensures_pure rfl

theorem KnowsNothing.isInvocation (h : x.KnowsNothing w) (v : Value) :
    x.isInvocation w v = false := by
  unfold Expander.isInvocation
  split
  next b hb => exact (ensures_invokes_false x v w b _ h (Prod.ext hb rfl)).2
  next => rfl

theorem isIdle_of_isInvocation (h : x.isInvocation w v) : x.isIdle w = false := by
  by_contra hidle
  rw [(knowsNothing_of_isIdle (by simpa using hidle)).isInvocation] at h
  cases h

theorem KnowsNothing.isFree (h : x.KnowsNothing w) (v : Value) : x.isFree w v :=
  throughout_of_forall (fun k as => by rw [h.isInvocation, Bool.not_false]) v

/-! ## Collections that find nothing -/

/-- In states where the same names are known as in `w`, the action finds nothing, and the same
names stay known. -/
def FindsNothing (x : Expander) (w : World) {α : Type} (act : Collection.M α) : Prop :=
  ∀ c, x.known? c.world = x.known? w →
    (act c).2.found = c.found ∧ x.known? (act c).2.world = x.known? w

section

variable {α β : Type} {act : Collection.M α}

theorem findsNothing_pure (a : α) : x.FindsNothing w (pure a : Collection.M α) :=
  fun _ hc => ⟨rfl, hc⟩

theorem findsNothing_throw (e : Error) : x.FindsNothing w (throw e : Collection.M α) :=
  fun _ hc => ⟨rfl, hc⟩

theorem findsNothing_except (r : Except Error α) :
    x.FindsNothing w (liftM r : Collection.M α) :=
  fun _ hc => ⟨rfl, hc⟩

theorem findsNothing_lift {act : Expansion α} (h : x.Heeds act) :
    x.FindsNothing w (Collection.lift act) :=
  fun c hc => ⟨rfl, (h c.world w hc).2.trans hc⟩

theorem FindsNothing.bind {f : α → Collection.M β} (h : x.FindsNothing w act)
    (hf : ∀ c a d, x.known? c.world = x.known? w → act c = (.ok a, d) → x.FindsNothing w (f a)) :
    x.FindsNothing w (act >>= f) := by
  intro c hc
  obtain ⟨hfound, hknown⟩ := h c hc
  match hact : act c with
  | (.ok a, d) =>
    rw [hact] at hfound hknown
    rw [bind_ok hact]
    obtain ⟨hfound', hknown'⟩ := hf c a d hc hact d hknown
    exact ⟨hfound'.trans hfound, hknown'⟩
  | (.error e, d) =>
    rw [hact] at hfound hknown
    rw [Act.bind_error hact]
    exact ⟨hfound, hknown⟩

theorem FindsNothing.ite {p : Prop} [Decidable p] {act' : Collection.M α}
    (h : x.FindsNothing w act) (h' : x.FindsNothing w act') :
    x.FindsNothing w (if p then act else act') := by
  split
  · exact h
  · exact h'

theorem FindsNothing.forM {γ : Type} {f : γ → Collection.M Unit} {xs : List γ}
    (h : ∀ y ∈ xs, x.FindsNothing w (f y)) : x.FindsNothing w (xs.forM f) := by
  induction xs with
  | nil => exact findsNothing_pure _
  | cons y ys ih =>
    change x.FindsNothing w (f y >>= fun _ => ys.forM f)
    exact (h y (by simp)).bind fun _ _ _ _ _ => ih fun z hz => h z (by simp [hz])

end

/-! Where a collection detects something, the tree is an invocation. -/

theorem isInvocation_subscript {u args : Value} {b : Bool}
    (hu : (node .subscript as).attr "value" = .ok u) (hc : u.candidate? = .ok (some (name, args)))
    (hcall : x.isCall name args .expr w = (.ok b, t)) :
    x.isInvocation w (.node .subscript as) = b := by
  refine isInvocation_of_run (t := t) ?_
  change (liftM ((node .subscript as).attr "value") >>= _ : Expansion Bool) w = _
  rw [lift_bind_ok hu, lift_bind_ok hc]
  exact hcall

theorem isInvocation_name {b : Bool} (hname : (node .name as).attr "id" = .ok name)
    (hcall : x.isCall name .none .name w = (.ok b, t)) : x.isInvocation w (.node .name as) = b := by
  refine isInvocation_of_run (t := t) ?_
  change (liftM ((node .name as).attr "id") >>= _ : Expansion Bool) w = _
  rw [lift_bind_ok hname]
  exact hcall

/-- The field and the form of the items of a node that may invoke macros. -/
def itemsField? : Kind → Option (String × Form)
  | .withStmt => some ("items", .block)
  | .functionDef | .classDef => some ("decorator_list", .decorator)
  | _ => none

theorem invokes_items (hk : itemsField? k = some (field, form)) (as : Attrs) :
    x.invokes (.node k as) = (liftM ((node k as).attr field) >>= fun items =>
      x.detect form items >>= fun ds => pure (ds.any (·.2)) : Expansion Bool) := by
  unfold itemsField? at hk
  split at hk <;> cases hk <;> rfl

theorem isInvocation_items {ds : List (Value × Bool)} (hk : itemsField? k = some (field, form))
    (hitems : (node k as).attr field = .ok items) (hds : x.detect form items w = (.ok ds, t)) :
    x.isInvocation w (.node k as) = ds.any (·.2) := by
  refine isInvocation_of_run (t := t) ?_
  rw [invokes_items hk, lift_bind_ok hitems, bind_ok hds]
  rfl

theorem isInvocation_of_notMem
    (h : k ∉ [Kind.subscript, .withStmt, .functionDef, .classDef, .name]) :
    x.isInvocation w (.node k as) = false := by
  have hinvokes : x.invokes (.node k as) = pure false := by
    unfold invokes
    simp only [kind?]
    split <;> simp_all
  exact isInvocation_of_run (t := w) (by rw [hinvokes]; rfl)

theorem run_of_isInvocation (h : x.isInvocation w v) :
    ∃ t, x.invokes v w = (.ok true, t) := by
  unfold isInvocation at h
  split at h
  next b hb =>
    subst h
    exact ⟨_, Prod.ext hb rfl⟩
  next => cases h

private theorem candidate_of_isMacroItem {item : Value}
    (h : x.isMacroItem form item w = (.ok true, t)) :
    ∃ u name args, itemCandidate item form = .ok u ∧ u.candidate? = .ok (some (name, args)) := by
  obtain ⟨u, hu, h⟩ := lift_bind_eq_ok.mp h
  obtain ⟨c, hc, h⟩ := lift_bind_eq_ok.mp h
  rcases c with _ | ⟨name, args⟩
  · cases h
  · exact ⟨u, name, args, hu, hc⟩

theorem elements_of_detect {ds : List (Value × Bool)} (h : x.detect form items w = (.ok ds, t)) :
    items.elements = .ok (ds.map (·.1)) ∧ ∀ d ∈ ds, d.2 → ∃ u name args,
      itemCandidate d.1 form = .ok u ∧ u.candidate? = .ok (some (name, args)) := by
  obtain ⟨xs, hxs, hmap⟩ := lift_bind_eq_ok.mp h
  rw [hxs]
  clear h hxs
  induction xs generalizing w ds with
  | nil =>
    cases hmap
    exact ⟨rfl, fun _ hd => by cases hd⟩
  | cons item xs ih =>
    rw [List.mapM_cons] at hmap
    obtain ⟨d, w₁, hd, hmap⟩ := bind_eq_ok.mp hmap
    obtain ⟨ds, w₂, hds, hmap⟩ := bind_eq_ok.mp hmap
    obtain ⟨b, w₃, hb, hd⟩ := bind_eq_ok.mp hd
    cases hmap
    cases hd
    obtain ⟨hxs, hrest⟩ := ih hds
    refine ⟨by rw [List.map_cons, ← Except.ok.inj hxs], fun d hd hflag => ?_⟩
    rcases List.mem_cons.mp hd with rfl | hd
    · obtain rfl : b := hflag
      exact candidate_of_isMacroItem hb
    · exact hrest d hd hflag

private theorem isNode_of_candidate {item u args : Value} (hu : itemCandidate item form = .ok u)
    (hc : u.candidate? = .ok (some (name, args))) : item.isNode := by
  cases item with
  | node => rfl
  | _ =>
    cases form with
    | block => cases hu
    | _ =>
      cases hu
      cases hc

theorem get?_of_attr (hk : itemsField? k = some (field, form))
    (hitems : (node k as).attr field = .ok items) : get? as field = some items := by
  unfold attr attr? at hitems
  cases hget : get? as field with
  | some v =>
    simp only [hget] at hitems
    exact congrArg some (Except.ok.inj hitems)
  | none =>
    simp only [hget] at hitems
    unfold itemsField? at hk
    split at hk <;> cases hk <;> cases hitems

end Expander

namespace Collection

open Expander

variable {x : Expander} {w : World} {k : Kind} {as : Attrs} {parts : Parts Scan}

theorem run_of_lift {α : Type} {act : Expansion α} {c d : Collection} {r : Except Error α}
    (h : lift act c = (r, d)) : act c.world = (r, d.world) := by
  have hr : (act c.world).1 = r := congrArg Prod.fst h
  have hw : (act c.world).2 = d.world := congrArg (fun p => p.2.world) h
  exact Prod.ext hr hw

theorem lift_of_run {α : Type} {act : Expansion α} {c : Collection} {t : World}
    {r : Except Error α} (h : act c.world = (r, t)) : lift act c = (r, { c with world := t }) := by
  simp only [lift, h]

private theorem findsNothing_visitItems {arguments : Scan → M Unit} {rest : M Unit}
    (hk : itemsField? k = some (field, form)) (hfree : x.isInvocation w (.node k as) = false)
    (hchildren : x.FindsNothing w (visitChildren k parts)) :
    x.FindsNothing w (visitItems x form k parts (.node k as) field arguments rest) := by
  refine (findsNothing_except _).bind fun c items d hc hitems =>
    (findsNothing_lift (heeds_detect x form items)).bind fun e ds f he hds => ?_
  have hany : ds.any (·.2) = false := by
    rw [← hfree, ← isInvocation_congr he]
    exact (isInvocation_items hk (congrArg Prod.fst hitems) (run_of_lift hds)).symm
  simp only [hany]
  exact hchildren

private theorem findsNothing_visitNode (hfree : x.isInvocation w (.node k as) = false)
    (hchildren : k ≠ .name → x.FindsNothing w (visitChildren k parts)) :
    x.FindsNothing w (visitNode x k as parts) := by
  unfold visitNode
  split
  · refine (findsNothing_except _).bind fun _ u _ _ hu =>
      (findsNothing_except _).bind fun _ c _ _ hcand => ?_
    rcases c with _ | ⟨name, args⟩
    · exact hchildren (by simp)
    · refine (findsNothing_lift (heeds_isCall x name args .expr)).bind fun e b f he hb => ?_
      have hfalse : b = false := by
        rw [← hfree, ← isInvocation_congr he]
        exact (isInvocation_subscript (congrArg Prod.fst hu) (congrArg Prod.fst hcand)
          (run_of_lift hb)).symm
      subst hfalse
      exact hchildren (by simp)
  · exact findsNothing_visitItems rfl hfree (hchildren (by simp))
  · exact findsNothing_visitItems rfl hfree (hchildren (by simp))
  · exact findsNothing_visitItems rfl hfree (hchildren (by simp))
  · refine (findsNothing_except _).bind fun _ name _ _ hname =>
      (findsNothing_lift (heeds_isCall x name .none .name)).bind fun e b f he hb => ?_
    have hfalse : b = false := by
      rw [← hfree, ← isInvocation_congr he]
      exact (isInvocation_name (congrArg Prod.fst hname) (run_of_lift hb)).symm
    subst hfalse
    exact findsNothing_pure _
  · exact (findsNothing_except _).bind fun _ _ _ _ _ => hchildren (by simp)
  next hname _ => exact hchildren hname

private theorem findsNothing_get : x.FindsNothing w (get : M Collection) := fun _ hc => ⟨rfl, hc⟩

theorem findsNothing_collect (h : x.isFree w v) : x.FindsNothing w (collect x v) := by
  induction v using walkInduction with
  | node k as ih =>
    obtain ⟨hroot, hbelow⟩ := isFree_node.mp h
    rw [collect, fold_node]
    refine findsNothing_get.bind fun c _ _ _ _ => ?_
    by_cases hk : k = .done
    · subst hk
      simp only [BEq.rfl, Bool.or_true, ↓reduceIte]
      exact findsNothing_pure _
    · refine (findsNothing_pure _).ite (findsNothing_visitNode hroot fun hname => ?_)
      rw [visitChildren, childItems_foldAttrs]
      refine FindsNothing.forM fun i hi => ?_
      obtain ⟨u, hu, rfl⟩ := List.mem_map.mp hi
      exact ih u hu (hbelow hk hname u hu)
  | rest v hn ih =>
    cases v with
    | node => cases hn
    | list xs =>
      rw [collect, fold_list, foldItems_eq]
      refine findsNothing_get.bind fun c _ _ _ _ => (findsNothing_pure _).ite ?_
      refine FindsNothing.forM fun i hi => ?_
      obtain ⟨u, hu, rfl⟩ := List.mem_map.mp hi
      exact ih u hu (isFree_list.mp h u hu)
    | none =>
      exact findsNothing_get.bind fun c _ _ _ _ => (findsNothing_pure _).ite (findsNothing_pure _)
    | _ =>
      exact findsNothing_get.bind fun c _ _ _ _ => (findsNothing_pure _).ite (findsNothing_throw _)

/-! ## Collections that find something -/

/-- What has been found stays found. -/
def Grows (c d : Collection) : Prop := c.found ≠ [] → d.found ≠ []

instance : IsPreorder Collection Grows where
  refl _ h := h
  trans _ _ _ h h' hc := h' (h hc)

theorem found_add (name : Value) (form : Form) (c : Collection) :
    (add name form c).2.found ≠ [] := by
  simp only [add, Act.modify_run]
  split
  next h =>
    intro hnil
    simp [hnil] at h
  next => simp

theorem grows_scan (x : Expander) (v : Value) :
    Scan.Keeps Grows (v.fold (scanNode x) fun v items _ => scanRest x v items) := by
  have hlift {α : Type} (act : Expansion α) : Keeps Grows (lift act) := fun _ h => h
  exact keeps_scan (fun _ _ _ => hlift _) (fun _ _ => hlift _)
    (fun name form c _ => found_add name form c) v

theorem found_bind {α β : Type} {act : M α} {f : α → M β} {c : Collection}
    (h : (act c).2.found ≠ []) (hf : ∀ a, Keeps Grows (f a)) : ((act >>= f) c).2.found ≠ [] := by
  match hact : act c with
  | (.ok a, d) =>
    rw [hact] at h
    rw [bind_ok hact]
    exact hf a d h
  | (.error e, d) =>
    rw [hact] at h
    rw [Act.bind_error hact]
    exact h

theorem found_forIn {γ : Type} {f : γ → PUnit → M (ForInStep PUnit)} {ys : List γ} {p : γ → Bool}
    (hkeeps : ∀ y ∈ ys, ∀ b, Keeps Grows (f y b))
    (hfind : ∀ y ∈ ys, p y → ∀ b c, (f y b c).2.found ≠ [])
    (hpass : ∀ y ∈ ys, p y = false → ∀ b c, f y b c = (.ok (.yield ⟨⟩), c))
    (hany : ys.any p) (b : PUnit) (c : Collection) : (forIn ys b f c).2.found ≠ [] := by
  induction ys generalizing b with
  | nil => cases hany
  | cons y ys ih =>
    rw [List.forIn_cons]
    cases hy : p y with
    | true =>
      refine found_bind (hfind y (by simp) hy b c) fun r => ?_
      cases r with
      | done => exact keeps_pure _
      | yield => exact Keeps.forIn fun z hz => hkeeps z (by simp [hz])
    | false =>
      rw [bind_ok (hpass y (by simp) hy b c)]
      exact ih (fun z hz => hkeeps z (by simp [hz])) (fun z hz => hfind z (by simp [hz]))
        (fun z hz => hpass z (by simp [hz])) (by simpa [hy] using hany) ⟨⟩

private theorem grows_part {name : String} {p : Part Scan} (h : (foldAttrs (scanNode x)
    (fun v items _ => scanRest x v items) as).lookup name = some p) :
    Scan.Keeps Grows p.result ∧ ∀ i ∈ p.items, Scan.Keeps Grows i.result := by
  rw [lookup_foldAttrs] at h
  obtain ⟨u, hu, rfl⟩ := Option.map_eq_some_iff.mp h
  refine ⟨grows_scan x u, fun i hi => ?_⟩
  obtain ⟨v, -, rfl⟩ := mem_items_foldPart _ _ hi
  exact grows_scan x v

/-- Where something is detected, the items of a node are gone through as they were detected. -/
theorem zip_detected {ds : List (Value × Bool)} {t : World}
    (hk : itemsField? k = some (field, form)) (hitems : (node k as).attr field = .ok items)
    (hds : x.detect form items w = (.ok ds, t)) (hany : ds.any (·.2)) :
    (foldAttrs (scanNode x) (fun v items _ => scanRest x v items) as).lookup field =
        some (foldPart (scanNode x) (fun v items _ => scanRest x v items) items) ∧
      (foldPart (scanNode x) (fun v items _ => scanRest x v items) items).items.zip
          (ds.map (·.2)) =
        ds.map fun d => (⟨d.1, d.1.fold (scanNode x) fun v items _ => scanRest x v items⟩, d.2) := by
  obtain ⟨hxs, hflagged⟩ := elements_of_detect hds
  obtain ⟨d, hd, hflag⟩ := List.any_eq_true.mp hany
  have hnode : d.1.isNode := by
    obtain ⟨u, name, args, hu, hc⟩ := hflagged d hd hflag
    exact isNode_of_candidate hu hc
  refine ⟨by rw [lookup_foldAttrs, get?_of_attr hk hitems, Option.map_some], ?_⟩
  rw [items_foldPart _ _ (elements?_of_elements hxs) (List.mem_map_of_mem hd) hnode,
    List.map_map, List.zip_map']
  rfl

private theorem found_visitItems {arguments : Scan → M Unit} {rest : M Unit} {c : Collection}
    (hk : itemsField? k = some (field, form)) (h : x.isInvocation c.world (.node k as))
    (harguments : ∀ s, Scan.Keeps Grows s → Keeps Grows (arguments s)) (hrest : Keeps Grows rest) :
    (visitItems x form k (foldAttrs (scanNode x) (fun v items _ => scanRest x v items) as)
      (.node k as) field arguments rest c).2.found ≠ [] := by
  obtain ⟨t, hrun⟩ := run_of_isInvocation h
  rw [invokes_items hk] at hrun
  obtain ⟨items, hitems, hrun⟩ := lift_bind_eq_ok.mp hrun
  obtain ⟨ds, t, hds, hrun⟩ := bind_eq_ok.mp hrun
  have hany : ds.any (·.2) := Except.ok.inj (congrArg Prod.fst hrun)
  have hflagged := (elements_of_detect hds).2
  obtain ⟨hlookup, hmarked⟩ := zip_detected hk hitems hds hany
  unfold visitItems
  rw [lift_bind_ok hitems, bind_ok (lift_of_run hds), if_pos hany]
  simp only [hlookup, hmarked]
  refine found_bind (found_forIn (p := (·.2)) (fun y hy _ => ?_) (fun y hy hflag _ c => ?_)
    (fun y hy hflag _ c => ?_) ?_ _ _) fun _ => ?_
  · obtain ⟨d, hd, rfl⟩ := List.mem_map.mp hy
    refine Keeps.ite ?_ (keeps_pure _)
    refine (Act.keeps_lift _).bind fun _ => (Act.keeps_lift _).bind fun c => ?_
    rcases c with _ | ⟨name, args⟩
    · exact keeps_pure _
    · exact Keeps.bind (fun c _ => found_add name form c) fun _ =>
        (harguments _ (grows_scan x d.1)).bind fun _ => keeps_pure _
  · obtain ⟨d, hd, rfl⟩ := List.mem_map.mp hy
    obtain ⟨u, name, args, hu, hc⟩ := hflagged d hd hflag
    rw [if_pos hflag, lift_bind_ok hu, lift_bind_ok hc]
    exact found_bind (found_add name form c) fun _ =>
      (harguments _ (grows_scan x d.1)).bind fun _ => keeps_pure _
  · rw [if_neg (by simp [hflag])]
    rfl
  · rw [List.any_map]
    exact hany
  · refine Keeps.bind (Keeps.forIn fun y hy _ => ?_) fun _ => hrest
    obtain ⟨d, hd, rfl⟩ := List.mem_map.mp hy
    exact ((grows_scan x d.1).visit.bind fun _ => keeps_pure _).ite (keeps_pure _)

private theorem found_visitNode {c : Collection} (h : x.isInvocation c.world (.node k as)) :
    (visitNode x k as (foldAttrs (scanNode x) (fun v items _ => scanRest x v items) as)
      c).2.found ≠ [] := by
  have hparts {name : String} {p : Part Scan} (h : (foldAttrs (scanNode x)
      (fun v items _ => scanRest x v items) as).lookup name = some p) := grows_part h
  obtain ⟨t, hrun⟩ := run_of_isInvocation h
  unfold visitNode
  split
  · obtain ⟨u, hu, hrun⟩ := lift_bind_eq_ok.mp hrun
    obtain ⟨cand, hcand, hrun⟩ := lift_bind_eq_ok.mp hrun
    rcases cand with _ | ⟨name, args⟩
    · cases hrun
    · rw [lift_bind_ok hu, lift_bind_ok hcand]
      dsimp only
      rw [bind_ok (lift_of_run hrun), if_pos rfl]
      exact found_bind (found_add name .expr _) fun _ =>
        (keeps_partScan fun p hp => (hparts hp).1.visitOwnArguments).bind fun _ =>
          keeps_partScan fun p hp => (hparts hp).1.visitValue
  · exact found_visitItems rfl h (fun s hs => hs.visitHeaderArguments)
      (keeps_partScan fun p hp => (hparts hp).1.visit)
  · exact found_visitItems rfl h (fun s hs => hs.visitOwnArguments)
      (keeps_visitFieldsExcept fun name p hp => (hparts hp).1.visit)
  · exact found_visitItems rfl h (fun s hs => hs.visitOwnArguments)
      (keeps_visitFieldsExcept fun name p hp => (hparts hp).1.visit)
  · obtain ⟨name, hname, hrun⟩ := lift_bind_eq_ok.mp hrun
    rw [lift_bind_ok hname, bind_ok (lift_of_run hrun), if_pos rfl]
    exact found_add name .name _
  · cases hrun
  next hsubscript hwith hfunction hclass hname _ =>
    rw [isInvocation_of_notMem (by simpa using ⟨hsubscript, hwith, hfunction, hclass, hname⟩)] at h
    cases h

theorem found_collect {c : Collection} (h : x.isInvocation c.world v) :
    (collect x v c).2.found ≠ [] := by
  cases v with
  | node k as =>
    have hidle := isIdle_of_isInvocation h
    have hdone : (k == .done) = false := by
      by_contra hdone
      obtain rfl : k = .done := by simpa using hdone
      cases h
    have hrun : collect x (.node k as) c = visitNode x k as (foldAttrs (scanNode x)
        (fun v items _ => scanRest x v items) as) c := by
      rw [collect, fold_node]
      simp only [scanNode]
      rw [bind_ok (Act.get_run c), hidle, hdone]
      rfl
    rw [hrun]
    exact found_visitNode h
  | _ => cases h

theorem found_collect_cons {vs : List Value} {c : Collection}
    (h : x.isInvocation c.world v) : (collect x (.list (v :: vs)) c).2.found ≠ [] := by
  have hidle := isIdle_of_isInvocation h
  rw [collect, fold_list, foldItems_eq]
  simp only [scanRest]
  rw [bind_ok (Act.get_run c), hidle]
  refine found_bind (found_collect h) fun _ => Keeps.forM fun i hi => ?_
  obtain ⟨u, -, rfl⟩ := List.mem_map.mp hi
  exact (grows_scan x u).visit

end Collection

end TreeMacros
