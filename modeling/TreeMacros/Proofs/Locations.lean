import TreeMacros.Proofs.Agreement
import TreeMacros.Proofs.Placement
import TreeMacros.Proofs.Unmarking

/-!
# Locations of what is expanded

What macros give need not say where in the source it stands; expansion fills that in from the
invocation. The main statement is that no node without a location is left, and that none is given
another one.
-/

namespace TreeMacros

open Attrs (get? get?_set isHidden)
open Act (Ensures ensures_pure ensures_throw Yields)

variable {xs : List Value} {name f : String}

variable {α β : Type} {as bs cs : Attrs} {k : Kind} {v r : Value}

/-- Where the action succeeds, `Q` holds of the outcome. -/
abbrev Act.Gives (act : Expansion α) (Q : α → Prop) : Prop := Ensures (fun _ => True) act Q

open Act (Gives)

theorem Act.Yields.gives {act : Expansion α} {Q : α → Prop} (h : Yields act Q) : Gives act Q := by
  intro w a t _ hrun
  obtain ⟨b, u, hact, hb⟩ := h w
  cases hact.symm.trans hrun
  exact ⟨trivial, hb⟩

theorem gives_lift {e : Except Error α} {Q : α → Prop} (h : ∀ a, e = .ok a → Q a) :
    Gives (liftM e) Q := by
  intro w a t _ hrun
  rw [Act.lift_run] at hrun
  exact ⟨trivial, h a (congrArg Prod.fst hrun)⟩

theorem gives_of_ite_bind {p : Prop} [Decidable p] {act act' : Expansion α} {f : α → Expansion β}
    {Q : β → Prop} (h : Gives ((if p then act else act') >>= f) Q) :
    Gives (if p then act >>= f else act' >>= f) Q := by
  split
  next hp => rwa [if_pos hp] at h
  next hp => rwa [if_neg hp] at h

namespace Value

/-! ## What a pass makes of a node -/

/-- What stands for an element of a list after a pass, where each node is replaced by something
that `R` relates it to. -/
def Replaces (R : Value → Value → Prop) (u : Value) (ys : List Value) : Prop :=
  if u.isNode then ∃ r, R u r ∧ ys = r.spliced else ys = [u]

/-- What an attribute that holds `old` has become, if a pass that finds `start` there has replaced
the nodes in it. Labels are left out. -/
def Renews (R : Value → Value → Prop) (old start new : Option Value) : Prop :=
  match old with
  | some (node j cs) =>
    ∃ r, R (node j cs) r ∧ new = if r.isNone then .none else some r.unlabelled
  | some (list xs) =>
    ∃ yss, List.Forall₂ (Replaces R) xs yss ∧ new = some (list (yss.flatten.map unlabelled))
  | _ => new = start

section

variable {R : Value → Value → Prop} {onNode : Kind → Attrs → Parts β → β}
  {onRest : Value → List (Item β) → List (Item β) → β}

private theorem gives_rebuildList {visit : Item β → Expansion Value}
    (h : ∀ u ∈ xs, u.isNode →
      Gives (visit ⟨u, fold onNode onRest u⟩) fun r => r.isPiece ∧ R u r) :
    Gives (rebuildList visit (foldItems onNode onRest xs)) fun ys =>
      ∃ yss, List.Forall₂ (Replaces R) xs yss ∧ ys = yss.flatten := by
  induction xs with
  | nil => exact ensures_pure ⟨[], .nil, rfl⟩
  | cons u xs ih =>
    have htail := ih fun v hv => h v (by simp [hv])
    rw [foldItems]
    cases hu : u.isNode with
    | true =>
      rw [rebuildList_cons_node _ _ hu]
      refine (h u (by simp) hu).bind fun r hr => ?_
      rw [replacement_of_isPiece hr.1]
      refine Ensures.bind (Q := fun here => here = r.spliced) (ensures_pure rfl) ?_
      rintro here rfl
      refine htail.bind fun ys hys => ensures_pure ?_
      obtain ⟨yss, hyss, rfl⟩ := hys
      refine ⟨r.spliced :: yss, .cons ?_ hyss, rfl⟩
      rw [Replaces, if_pos hu]
      exact ⟨r, hr.2, rfl⟩
    | false =>
      rw [rebuildList_cons_other _ _ hu]
      refine htail.bind fun ys hys => ensures_pure ?_
      obtain ⟨yss, hyss, rfl⟩ := hys
      refine ⟨[u] :: yss, .cons ?_ hyss, rfl⟩
      rw [Replaces, if_neg (by simp [hu])]

private theorem gives_unset (as : Attrs) (name : String) :
    Gives (Act.unset as name : Expansion Attrs) fun bs => bs = Attrs.erase as name := by
  unfold Act.unset
  split
  · exact ensures_pure rfl
  · exact (Act.yields_note _).gives.bind fun _ _ => ensures_pure rfl

private theorem gives_rebuildAttr {visit : Item β → Expansion Value} (hname : isHidden name = false)
    (hv : get? as name = some v) (h : ∀ u ∈ childrenAt as name,
      Gives (visit ⟨u, fold onNode onRest u⟩) fun r => r.isPiece ∧ R u r) (bs : Attrs) :
    Gives (rebuildAttr visit bs name (foldPart onNode onRest v)) fun cs =>
      Renews R (some v) (get? (unlabelledAttrs bs) name)
        (get? (unlabelledAttrs cs) name) ∧
      ∀ f, isHidden f = false → f ≠ name →
        get? (unlabelledAttrs cs) f = get? (unlabelledAttrs bs) f := by
  cases v with
  | list xs =>
    refine (gives_rebuildList fun u hu hn =>
      h u (mem_childrenAt.mpr ⟨hn, .inr ⟨xs, hv, hu⟩⟩)).bind fun ys hys => ?_
    obtain ⟨yss, hyss, rfl⟩ := hys
    refine (yields_refill hname bs yss.flatten).gives.mono fun cs hcs => ?_
    rw [hcs]
    refine ⟨⟨yss, hyss, ?_⟩, fun f _ hne => ?_⟩
    · rw [get?_set, if_pos rfl]
    · rw [get?_set, if_neg hne]
  | node j ds =>
    refine (h _ (mem_childrenAt.mpr ⟨rfl, .inl hv⟩)).bind fun r hr => ?_
    split
    · refine (gives_unset bs name).mono fun cs hcs => ?_
      subst hcs
      refine ⟨⟨_, hr.2, ?_⟩, fun f hf hne => ?_⟩
      · rw [get?_unlabelledAttrs hname, Attrs.get?_erase, if_pos rfl]
        rfl
      · rw [get?_unlabelledAttrs hf, get?_unlabelledAttrs hf, Attrs.get?_erase, if_neg hne]
    next _ hr' =>
      refine (yields_assign hname bs _).gives.mono fun cs hcs => ?_
      rw [hcs]
      refine ⟨⟨r, hr.2, ?_⟩, fun f _ hne => ?_⟩
      · have hnone : r.isNone = false := by
          cases r with
          | none => exact (hr' rfl).elim
          | _ => rfl
        rw [get?_set, if_pos rfl, hnone]
        rfl
      · rw [get?_set, if_neg hne]
  | _ => exact ensures_pure ⟨rfl, fun _ _ _ => rfl⟩

/-- A pass that begins with the attributes `bs` changes those that are fields, each according to
what `as` holds there. -/
theorem gives_rebuild {R : String → Value → Value → Prop} {visit : String → Item β → Expansion Value}
    (h : ∀ name ∈ k.fieldNames, ∀ u ∈ childrenAt as name,
      Gives (visit name ⟨u, fold onNode onRest u⟩) fun r => r.isPiece ∧ R name u r)
    (bs : Attrs) :
    Gives (rebuild visit k bs (foldAttrs onNode onRest as)) fun r => ∃ cs, r = node k cs ∧
      (∀ f ∈ k.fieldNames, Renews (R f) (get? as f) (get? (unlabelledAttrs bs) f)
        (get? (unlabelledAttrs cs) f)) ∧
      ∀ f, isHidden f = false → f ∉ k.fieldNames →
        get? (unlabelledAttrs cs) f = get? (unlabelledAttrs bs) f := by
  have hgo : ∀ names, names.Nodup → (∀ f ∈ names, f ∈ k.fieldNames) → ∀ bs,
      Gives (rebuild.go visit (foldAttrs onNode onRest as) names bs) fun cs =>
        (∀ f ∈ names, Renews (R f) (get? as f) (get? (unlabelledAttrs bs) f)
          (get? (unlabelledAttrs cs) f)) ∧
        ∀ f, isHidden f = false → f ∉ names →
          get? (unlabelledAttrs cs) f = get? (unlabelledAttrs bs) f := by
    intro names hnodup hnames
    induction names with
    | nil => exact fun bs => ensures_pure ⟨by simp, fun _ _ _ => rfl⟩
    | cons name names ih =>
      intro bs
      obtain ⟨hnot, hnodup⟩ := List.nodup_cons.mp hnodup
      have hfield := hnames name (by simp)
      have hhidden := Kind.isHidden_of_mem hfield
      have hnext := ih hnodup fun f hf => hnames f (by simp [hf])
      have hne : ∀ f ∈ names, f ≠ name := fun f hf e => hnot (e ▸ hf)
      rw [rebuild.go, lookup_foldAttrs]
      cases hv : get? as name with
      | none =>
        refine (hnext bs).mono fun cs hcs => ⟨fun f hf => ?_, fun f hf hfn => ?_⟩
        · rcases List.mem_cons.mp hf with rfl | hf
          · rw [hv]
            exact hcs.2 f hhidden hnot
          · exact hcs.1 f hf
        · exact hcs.2 f hf fun h => hfn (List.mem_cons_of_mem _ h)
      | some v =>
        refine (gives_rebuildAttr hhidden hv (h name hfield) bs).bind fun ds hds => ?_
        refine (hnext ds).mono fun cs hcs => ⟨fun f hf => ?_, fun f hf hfn => ?_⟩
        · rcases List.mem_cons.mp hf with rfl | hf
          · rw [hv, hcs.2 f hhidden hnot]
            exact hds.1
          · rw [← hds.2 f (Kind.isHidden_of_mem (hnames f (by simp [hf]))) (hne f hf)]
            exact hcs.1 f hf
        · rw [List.mem_cons, not_or] at hfn
          rw [hcs.2 f hf hfn.2, hds.2 f hf hfn.1]
  refine (hgo _ k.fieldNames_nodup (fun _ hf => hf) bs).bind fun cs hcs => ensures_pure ?_
  exact ⟨cs, rfl, hcs.1, hcs.2⟩

private theorem exists_of_replaces {yss : List (List Value)} (h : List.Forall₂ (Replaces R) xs yss)
    {y : Value} (hy : y ∈ yss.flatten) (hn : y.isNode) :
    ∃ u ∈ xs, u.isNode ∧ ∃ r, R u r ∧ y ∈ r.spliced := by
  induction h with
  | nil => cases hy
  | @cons u ys xs yss hu _ ih =>
    rw [List.flatten_cons, List.mem_append] at hy
    rcases hy with hy | hy
    · unfold Replaces at hu
      split at hu
      next hnode =>
        obtain ⟨r, hr, rfl⟩ := hu
        exact ⟨u, List.mem_cons_self, hnode, r, hr, hy⟩
      next hnode =>
        subst hu
        obtain rfl := List.mem_singleton.mp hy
        exact absurd hn hnode
    · obtain ⟨u', hu', hrest⟩ := ih hy
      exact ⟨u', List.mem_cons_of_mem u hu', hrest⟩

/-- A node that an attribute holds after a pass comes from a node that it has held, unless the pass
has found nothing to visit there. -/
theorem mem_childrenAt_of_renews {start : Option Value} (h : Renews R (get? as f) start (get? cs f))
    {w : Value} (hw : w ∈ childrenAt cs f) :
    (∃ u ∈ childrenAt as f, ∃ r, R u r ∧ ∃ y ∈ r.spliced, w = y.unlabelled) ∨
      (∀ u, get? as f = some u → u.isNode = false ∧ u.isList = false) ∧
        get? cs f = start := by
  unfold Renews at h
  split at h
  next j ds hold =>
    obtain ⟨r, hr, hnew⟩ := h
    refine .inl ⟨node j ds, mem_childrenAt.mpr ⟨rfl, .inl hold⟩, r, hr, ?_⟩
    split at hnew
    · simp [childrenAt, hnew] at hw
    · obtain ⟨hn, hget | ⟨ys, hget, hy⟩⟩ := mem_childrenAt.mp hw
      · obtain rfl : r.unlabelled = w := Option.some.inj (hnew.symm.trans hget)
        rw [isNode_unlabelled] at hn
        refine ⟨r, ?_, rfl⟩
        cases r with
        | node => exact List.mem_singleton_self _
        | _ => cases hn
      · have hlist : r.unlabelled = list ys := Option.some.inj (hnew.symm.trans hget)
        cases r with
        | list zs =>
          rw [unlabelled, unlabelledItems_eq] at hlist
          cases hlist
          obtain ⟨z, hz, rfl⟩ := List.mem_map.mp hy
          exact ⟨z, hz, rfl⟩
        | _ => simp [unlabelled] at hlist
  next xs hold =>
    obtain ⟨yss, hyss, hnew⟩ := h
    simp only [childrenAt, hnew, List.mem_filter, List.mem_map] at hw
    obtain ⟨⟨y, hy, rfl⟩, hn⟩ := hw
    rw [isNode_unlabelled] at hn
    obtain ⟨u, hu, hnode, r, hr, hspliced⟩ := exists_of_replaces hyss hy hn
    exact .inl ⟨u, mem_childrenAt.mpr ⟨hnode, .inr ⟨xs, hold, hu⟩⟩, r, hr, y, hspliced, rfl⟩
  next hnode hlist =>
    refine .inr ⟨fun u hu => ?_, h⟩
    cases u with
    | node j ds => exact (hnode j ds hu).elim
    | list xs => exact (hlist xs hu).elim
    | _ => exact ⟨rfl, rfl⟩

end

/-! ## Conditions that passes keep -/

/-- The condition holds of all nodes that walks meet. -/
def every (p : Kind → Attrs → Bool) (v : Value) : Bool := v.throughout (fun _ => true) p

section

variable {p : Kind → Attrs → Bool}

theorem every_node : (node k as).every p ↔
    p k as = true ∧ ∀ u ∈ children k as, u.every p := by
  rw [every, throughout_node]
  simp only [forall_const]
  rfl

theorem every_list : (list xs).every p ↔ ∀ u ∈ xs, u.every p :=
  throughout_list

theorem every_none : none.every p := throughout_other rfl rfl

theorem spreads_every : Spreads (every p · = true) := ⟨every_none, fun _ => every_list⟩

theorem every_of_mem_spliced (h : v.every p) {y : Value} (hy : y ∈ v.spliced) :
    y.every p :=
  spreads_every.spliced_iff.mpr h y hy

theorem every_suite {rs : List Value} (h : ∀ r ∈ rs, r.every p) :
    (suite rs).every p :=
  spreads_every.suite_iff.mpr h

/-- A condition on nodes that a pass cannot break: it does not look at labels, nor at what stands
in the fields beyond whether this is a node, a list or nothing. -/
structure Robust (p : Kind → Attrs → Bool) : Prop where
  unlabelled : ∀ k as, p k (unlabelledAttrs as) = p k as
  renewed : ∀ k bs cs,
    (∀ f ∈ k.fieldNames, get? cs f = get? bs f ∨
      ∀ u, get? cs f = some u → u.isPiece = true) →
    (∀ f, isHidden f = false → f ∉ k.fieldNames → get? cs f = get? bs f) →
    p k bs = true → p k cs = true

variable (hp : Robust p)

include hp

theorem every_unlabelled (v : Value) : v.unlabelled.every p = v.every p :=
  throughout_unlabelled hp.unlabelled v

theorem every_labelled (v : Value) (n : Nat) : (v.labelled n).1.every p = v.every p :=
  throughout_labelled hp.unlabelled v n

theorem gives_label (hv : v.every p) :
    Gives (Act.label v : Expansion Value) fun r => r.every p := by
  intro w r t _ hrun
  rw [Act.label_run] at hrun
  cases hrun
  exact ⟨trivial, (every_labelled hp v _).trans hv⟩

omit hp in
private theorem every_of_get? {u : Value} (h : get? cs f = some u) (hu : u.every p) :
    ∀ c ∈ childrenAt cs f, c.every p := by
  intro c hc
  obtain ⟨hn, hget | ⟨ys, hget, hy⟩⟩ := mem_childrenAt.mp hc
  · rw [h] at hget
    cases hget
    exact hu
  · rw [h] at hget
    cases hget
    exact every_list.mp hu c hy

private theorem every_of_renews {start : Option Value}
    (h : Renews (fun _ r => r.isPiece ∧ r.every p) (get? as f) start
      (get? cs f)) (hstart : (∀ u, get? as f = some u → u.isNode = false ∧ u.isList = false) →
      start = get? bs f ∧ ∀ c ∈ childrenAt bs f, c.every p) :
    ∀ c ∈ childrenAt cs f, c.every p := by
  intro c hc
  rcases mem_childrenAt_of_renews h hc with ⟨u, -, r, hr, y, hy, rfl⟩ | ⟨hold, hnew⟩
  · rw [every_unlabelled hp]
    exact every_of_mem_spliced hr.2 hy
  · obtain ⟨rfl, hall⟩ := hstart hold
    rw [childrenAt, hnew, ← childrenAt] at hc
    exact hall c hc

omit hp in
private theorem kept_of_renews {old start new : Option Value}
    (h : Renews (fun _ r => r.isPiece ∧ r.every p) old start new) :
    new = start ∨ ∀ u, new = some u → u.isPiece := by
  unfold Renews at h
  split at h
  · obtain ⟨r, hr, rfl⟩ := h
    refine .inr fun u hu => ?_
    split at hu
    · cases hu
    · cases hu
      rw [isPiece_unlabelled, hr.1]
  · obtain ⟨yss, -, rfl⟩ := h
    refine .inr fun u hu => ?_
    cases hu
    rfl
  · exact .inl h

theorem gives_rebuild_every {onNode : Kind → Attrs → Parts β → β}
    {onRest : Value → List (Item β) → List (Item β) → β} {visit : String → Item β → Expansion Value}
    (h : ∀ name ∈ k.fieldNames, ∀ u ∈ childrenAt as name,
      Gives (visit name ⟨u, fold onNode onRest u⟩) fun r => r.isPiece ∧ r.every p)
    (hown : p k bs)
    (hstart : ∀ f ∈ k.fieldNames,
      (∀ u, get? as f = some u → u.isNode = false ∧ u.isList = false) →
        ∀ c ∈ childrenAt bs f, c.every p) :
    Gives (rebuild visit k bs (foldAttrs onNode onRest as)) fun r =>
      r.isNode = true ∧ r.every p := by
  refine (gives_rebuild (R := fun _ _ r => r.isPiece ∧ r.every p) (fun name hname u hu =>
    (h name hname u hu).mono fun r hr => ⟨hr.1, hr⟩) bs).mono fun r hr => ?_
  obtain ⟨cs, rfl, hfields, hothers⟩ := hr
  refine ⟨rfl, ?_⟩
  rw [← every_unlabelled hp, unlabelled, every_node]
  refine ⟨?_, fun c hc => ?_⟩
  · rw [← hp.unlabelled] at hown
    exact hp.renewed k _ _ (fun f hf => kept_of_renews (hfields f hf)) hothers hown
  · obtain ⟨f, hf, hc⟩ := mem_children.mp hc
    refine every_of_renews hp (hfields f hf) (fun hold => ⟨rfl, ?_⟩) c hc
    intro c hc
    rw [childrenAt_unlabelledAttrs (Kind.isHidden_of_mem hf)] at hc
    obtain ⟨d, hd, rfl⟩ := List.mem_map.mp hc
    rw [every_unlabelled hp]
    exact hstart f hf hold d hd

end

/-! ## Nodes with a location -/

/-- Whether an attribute is there and not empty. -/
def isGiven (as : Attrs) (name : String) : Bool := (get? as name).any (!·.isNone)

/-- The decorators of a definition are no set, so that walks meet them. -/
def showsDecorators (as : Attrs) : Bool :=
  match get? as "decorator_list" with
  | some (set _) => false
  | _ => true

/-- A node that should have a location has one. -/
def isSited (k : Kind) (as : Attrs) : Bool :=
  (!k.located || isGiven as "lineno" && isGiven as "col_offset") && showsDecorators as

/-- A node that should have a location has one, or leaves it open in part or in full. -/
def isOpen (k : Kind) (as : Attrs) : Bool :=
  (!k.located || (get? as "lineno").all (!·.isNone) &&
    (get? as "col_offset").all (!·.isNone)) && showsDecorators as

theorem showsDecorators_unlabelledAttrs (as : Attrs) :
    showsDecorators (unlabelledAttrs as) = showsDecorators as := by
  unfold showsDecorators
  rw [get?_unlabelledAttrs isHidden_location.2.2]
  rcases get? as "decorator_list" with _ | v
  · rfl
  · cases v <;> simp [unlabelled]

private theorem showsDecorators_of_kept (h : get? cs "decorator_list" = get? bs "decorator_list" ∨
      ∀ u, get? cs "decorator_list" = some u → u.isPiece)
    (hbs : showsDecorators bs) : showsDecorators cs := by
  rcases h with heq | hpiece
  · rw [showsDecorators, heq]
    exact hbs
  · unfold showsDecorators
    split
    next xs hxs => cases hpiece _ hxs
    next => rfl

theorem isOpen_unlabelledAttrs (k : Kind) (as : Attrs) :
    isOpen k (unlabelledAttrs as) = isOpen k as := by
  obtain ⟨hline, hcolumn, -⟩ := isHidden_location
  simp only [isOpen, get?_unlabelledAttrs hline, get?_unlabelledAttrs hcolumn, Option.all_map,
    isNone_unlabelled, showsDecorators_unlabelledAttrs]

theorem robust_isSited : Robust isSited where
  unlabelled k as := by
    obtain ⟨hline, hcolumn, -⟩ := isHidden_location
    simp only [isSited, isGiven, get?_unlabelledAttrs hline, get?_unlabelledAttrs hcolumn,
      Option.any_map, isNone_unlabelled, showsDecorators_unlabelledAttrs]
  renewed k bs cs hfields hothers h := by
    obtain ⟨hline, hcolumn, hdecorators⟩ := isHidden_location
    simp only [isSited, isGiven, Bool.and_eq_true] at h ⊢
    refine ⟨?_, ?_⟩
    · cases hk : k.located with
      | false => rfl
      | true =>
        obtain ⟨hnoline, hnocolumn⟩ := k.location_notMem_fieldNames hk
        rw [hothers _ hline hnoline, hothers _ hcolumn hnocolumn]
        rw [hk] at h
        exact h.1
    refine showsDecorators_of_kept ?_ h.2
    by_cases hf : "decorator_list" ∈ k.fieldNames
    · exact hfields _ hf
    · exact .inl (hothers _ hdecorators hf)

/-! ## Filling in locations -/

variable {line column : Value}

private theorem isSited_of_moved {g : Value → Value} (hline : line.isNone = false)
    (hcolumn : column.isNone = false) (has : isOpen k as)
    (h : Moved (origin .reference (placeOf line column) [(k, as)]) g k as bs) :
    isSited k bs := by
  rw [isOpen, Bool.and_eq_true] at has
  have hdecorators := showsDecorators_of_kept (h.kept fun _ => by decide) has.2
  rw [isSited, hdecorators, Bool.and_true]
  cases hk : k.located with
  | false => rfl
  | true =>
    have hgiven {name : String} (hname : name ∈ ["lineno", "col_offset"])
        (hopen : (get? as name).all (!·.isNone))
        (hplace : (placeOf line column name).isNone = false) : isGiven bs name := by
      rw [isGiven, h.location hk name hname, origin_reference hk]
      cases hget : get? as name <;> simp_all
    simp only [hk, Bool.not_true, Bool.false_or, Bool.and_eq_true] at has ⊢
    exact ⟨hgiven (by simp) has.1.1 (by simpa [placeOf] using hline),
      hgiven (by simp) has.1.2 (by simpa [placeOf] using hcolumn)⟩

/-- An attribute that a pass finds nothing to visit in, and that is still the same, holds no
nodes. -/
private theorem childrenAt_eq_nil (hf : f ∈ k.fieldNames)
    (hold : ∀ u, get? as f = some u → u.isNode = false ∧ u.isList = false)
    (hsame : get? (unlabelledAttrs bs) f = get? (unlabelledAttrs as) f) : childrenAt bs f = [] := by
  have hhidden := Kind.isHidden_of_mem hf
  have hmap : (childrenAt bs f).map unlabelled = (childrenAt as f).map unlabelled := by
    rw [← childrenAt_unlabelledAttrs hhidden, ← childrenAt_unlabelledAttrs hhidden, childrenAt,
      hsame, ← childrenAt]
  have hnil : childrenAt as f = [] := by
    unfold childrenAt
    split
    next hu => cases (hold _ hu).1
    next hu => cases (hold _ hu).2
    next => rfl
  rw [hnil, List.map_nil, List.map_eq_nil_iff] at hmap
  exact hmap

theorem Sited.every {p q : Kind → Attrs → Bool} {site : List (Kind × Attrs) → String → Value}
    {above : List (Kind × Attrs)} (hq : ∀ above k as bs g, q k as →
      Moved (site ((k, as) :: above)) g k as bs → p k bs)
    (h : Sited site above v r) (hv : v.every q) : r.every p := by
  induction h with
  | node g own _ ih =>
    obtain ⟨hown, hbelow⟩ := every_node.mp hv
    refine every_node.mpr ⟨hq _ _ _ _ g hown own, fun u hu => ?_⟩
    rw [own.children_eq] at hu
    obtain ⟨w, hw, rfl⟩ := List.mem_map.mp hu
    exact ih w hw (hbelow w hw)
  | list g _ ih =>
    refine every_list.mpr (List.forall_mem_map.mpr fun u hu => ?_)
    exact ih u hu (every_list.mp hv u hu)
  | none => exact every_none

theorem gives_place_sited (line column v : Value) :
    Gives (place .reference v line column : Expansion Value) fun r =>
      (v.isNode → r.isNode) ∧
        Sited (origin .reference (placeOf line.unlabelled column.unlabelled)) []
          v.unlabelled r.unlabelled := by
  intro w r t _ hrun
  obtain ⟨s, hs, rfl, hn⟩ := (mirrors_place v line column).ok w r t hrun
  exact ⟨trivial, fun h => by simpa using hn h, sited_of_place hs⟩

theorem gives_place (hline : line.isNone = false) (hcolumn : column.isNone = false)
    (hv : v.every isOpen) :
    Gives (place .reference v line column : Expansion Value) fun r =>
      (v.isNode → r.isNode) ∧ r.every isSited := by
  refine (gives_place_sited line column v).mono fun r hr => ⟨hr.1, ?_⟩
  rw [← every_unlabelled robust_isSited]
  refine hr.2.every (fun _ _ _ _ _ => isSited_of_moved (by simpa using hline)
    (by simpa using hcolumn)) ?_
  rwa [Value.every, throughout_unlabelled isOpen_unlabelledAttrs]

/-! ## Locations that are there -/

/-- One step on the way down into a tree. -/
inductive Step where
  | field (name : String)
  | item (i : Nat)

/-- What stands at the end of a way down. -/
def at? : List Step → Value → Option Value
  | [], v => some v
  | .field name :: path, node _ as => (get? as name).bind (at? path)
  | .item i :: path, list xs => xs[i]?.bind (at? path)
  | _ :: _, _ => .none

/-- The nodes of `v` are found in `r` where they were, with the lines and columns that they had. -/
def KeepsPlaces (v r : Value) : Prop :=
  ∀ path k as, v.at? path = some (node k as) → ∃ bs, r.at? path = some (node k bs) ∧
    (k.located = true → ∀ name ∈ ["lineno", "col_offset"], ∀ a,
      get? as name = some a → get? bs name = some a)

theorem keepsPlaces_refl (v : Value) : KeepsPlaces v v :=
  fun _ _ as h => ⟨as, h, fun _ _ _ _ ha => ha⟩

theorem keepsPlaces_list {ys : List Value} (h : List.Forall₂ KeepsPlaces xs ys) :
    KeepsPlaces (list xs) (list ys) := by
  intro path k as hat
  match path with
  | [] => cases hat
  | .field name :: path => cases hat
  | .item i :: path =>
    obtain ⟨x, hx, hat⟩ := Option.bind_eq_some_iff.mp hat
    obtain ⟨hi, rfl⟩ := List.getElem?_eq_some_iff.mp hx
    obtain ⟨bs, hbs, hkeep⟩ := h.get hi (h.length_eq ▸ hi) path k as hat
    refine ⟨bs, ?_, hkeep⟩
    rw [at?, List.getElem?_eq_getElem (h.length_eq ▸ hi)]
    exact hbs

/-- Nodes keep their places if attributes that are there stay as they are, or keep the places of the
nodes in them. -/
private theorem keepsPlaces_node
    (hown : k.located → ∀ name ∈ ["lineno", "col_offset"], ∀ a,
      get? as name = some a → get? bs name = some a)
    (hattrs : ∀ f u, get? as f = some u → ∃ r, get? bs f = some r ∧ KeepsPlaces u r) :
    KeepsPlaces (node k as) (node k bs) := by
  intro path j ds hat
  match path with
  | [] =>
    cases hat
    exact ⟨bs, rfl, hown⟩
  | .item i :: path => cases hat
  | .field f :: path =>
    obtain ⟨u, hu, hat⟩ := Option.bind_eq_some_iff.mp hat
    obtain ⟨r, hr, hkeeps⟩ := hattrs f u hu
    obtain ⟨es, hes, hkeep⟩ := hkeeps path j ds hat
    refine ⟨es, ?_, hkeep⟩
    rw [at?, hr]
    exact hes

theorem Sited.keepsPlaces {given : String → Value} {above : List (Kind × Attrs)}
    (h : Sited (origin .reference given) above v r) : KeepsPlaces v r := by
  induction h with
  | @node above k as bs g own _ ih =>
    have hown (hk : k.located) (name : String) (hname : name ∈ ["lineno", "col_offset"])
        (a : Value) (ha : get? as name = some a) : get? bs name = some a := by
      rw [own.location hk name hname, origin_reference hk, ha, Option.getD_some]
    refine keepsPlaces_node hown fun f u hu => ?_
    by_cases hf : f ∈ k.fieldNames
    · refine ⟨replaced g u, by rw [own.fields f hf, hu]; rfl, ?_⟩
      cases u with
      | node j cs => exact ih _ (mem_children_of_get? hf hu rfl)
      | list xs =>
        refine keepsPlaces_list (List.forall₂_map_right_iff.mpr ?_)
        refine List.forall₂_same.mpr fun x hx => ?_
        cases hn : x.isNode with
        | true => simpa [hn] using ih x (mem_children_of_mem hf hu hx hn)
        | false => simpa [hn] using keepsPlaces_refl x
      | _ => exact keepsPlaces_refl _
    · refine ⟨u, ?_, keepsPlaces_refl u⟩
      by_cases hk : k.located ∧ f ∈ ["lineno", "col_offset"]
      · exact hown hk.1 f hk.2 u hu
      · rw [own.others f hf fun h => fun hname => hk ⟨h, hname⟩, hu]
  | list g _ ih =>
    exact keepsPlaces_list (List.forall₂_map_right_iff.mpr (List.forall₂_same.mpr ih))
  | none => exact keepsPlaces_refl _

theorem gives_fixLocations_keepsPlaces (reference v : Value) :
    Gives (fixLocations .reference reference v : Expansion Value) fun r =>
      KeepsPlaces v.unlabelled r.unlabelled := by
  unfold fixLocations
  split
  · exact (gives_place_sited _ _ v).mono fun r hr => hr.2.keepsPlaces
  · exact ensures_pure (keepsPlaces_refl _)

/-! ## Other passes over nodes with a location -/

theorem gives_fillContext (k : Kind) (as : Attrs) (c : Context) :
    Gives (if lacksContext k as then Editing.assign as "ctx" c.node else pure as : Expansion Attrs)
      fun bs => lacksContext k as = false ∧ unlabelledAttrs bs = unlabelledAttrs as ∨
        lacksContext k as = true ∧ "ctx" ∈ k.fieldNames ∧
          unlabelledAttrs bs = Attrs.set (unlabelledAttrs as) "ctx" c.node := by
  split
  next h =>
    have hctx : "ctx" ∈ k.fieldNames := by
      rw [lacksContext, Bool.and_eq_true] at h
      simpa [Kind.hasField] using h.1
    refine (yields_assign (Kind.isHidden_of_mem hctx) as c.node).gives.mono fun bs hbs =>
      .inr ⟨h, hctx, ?_⟩
    rw [hbs]
    cases c <;> rfl
  next h => exact ensures_pure (.inl ⟨by simpa using h, rfl⟩)

theorem gives_placeContexts (c : Context) (hv : v.every isSited) :
    Gives (v.placeContexts c : Expansion Value) fun r =>
      (v.isNode → r.isNode) ∧ r.every isSited := by
  induction v using walkInduction generalizing c with
  | node k as ih =>
    obtain ⟨hown, hchildren⟩ := every_node.mp hv
    rw [placeContexts, fold_node]
    refine gives_of_ite_bind ((gives_fillContext k as c).bind fun bs hbs => ?_)
    dsimp only
    cases (node k bs).requireAttrs ((Context.ofChildren k).map (·.1)) with
    | error e => exact ensures_throw e
    | ok =>
      refine (gives_rebuild_every robust_isSited (fun name hname u hu => ?_) ?_ fun f hf hold => ?_).mono
        fun r hr => ⟨fun _ => hr.1, hr.2⟩
      · have hmem : u ∈ children k as := mem_children.mpr ⟨name, hname, hu⟩
        refine (ih u hmem _ (hchildren u hmem)).mono fun r hr => ⟨?_, hr.2⟩
        simp [isPiece, hr.1 (isNode_of_mem_children hmem)]
      · rw [← robust_isSited.unlabelled] at hown ⊢
        rcases hbs with ⟨-, hbs⟩ | ⟨-, hctx, hbs⟩
        · rw [hbs, hown]
        · refine robust_isSited.renewed k _ _ (fun f hf => ?_) (fun f _ hf => ?_) hown
          · rw [hbs, get?_set]
            split
            · refine .inr fun u hu => ?_
              cases hu
              rfl
            · exact .inl rfl
          · have hne : f ≠ "ctx" := fun e => hf (e ▸ hctx)
            rw [hbs, get?_set, if_neg hne]
      · rcases hbs with ⟨-, hbs⟩ | ⟨-, hctx, hbs⟩
        · simp [childrenAt_eq_nil hf hold (by rw [hbs])]
        · by_cases hne : f = "ctx"
          · subst hne
            have hget : get? (unlabelledAttrs bs) "ctx" = some c.node := by
              rw [hbs, get?_set, if_pos rfl]
            intro d hd
            have hd : d.unlabelled ∈ childrenAt (unlabelledAttrs bs) "ctx" := by
              rw [childrenAt_unlabelledAttrs (Kind.isHidden_of_mem hf)]
              exact List.mem_map_of_mem hd
            rw [← every_unlabelled robust_isSited]
            refine every_of_get? hget ?_ _ hd
            cases c <;> decide +kernel
          · simp [childrenAt_eq_nil hf hold (by rw [hbs, get?_set, if_neg hne])]
  | rest v hn ih =>
    cases v with
    | node => cases hn
    | list xs =>
      rw [placeContexts, fold_list, foldItems_eq]
      simp only [List.mapM_map]
      refine (Ensures.mapM fun u hu => ?_).bind fun rs hrs => ensures_pure
        ⟨(by cases ·), every_suite hrs⟩
      exact (ih u hu c (every_list.mp hv u hu)).mono fun r hr => hr.2
    | _ => exact ensures_throw _

/-- Removing markers keeps conditions, if this is known of a node once it is known of its children and
if what a marker holds satisfies a condition that is as strong as that on the marker. -/
theorem gives_unmarking_of {I : Type} {P : I → Value → Prop} (hP : ∀ i, Spreads (P i))
    (hnode : ∀ i k as, P i (node k as) →
      (∀ u ∈ children k as, ∀ j, P j u → Gives (unmarking .expanderMarker u : Unmarking Expansion).visit
        fun r => r.isPiece ∧ P j r) →
      Gives (unmarking .expanderMarker (node k as) : Unmarking Expansion).descend
        fun r => r.isNode ∧ P i r)
    (hmarker : ∀ i k as u, Kind.expanderMarker.isMarkerOf k → "body" ∈ k.fieldNames →
      P i (node k as) → u ∈ childrenAt as "body" → ∃ j, P j u ∧ ∀ r, P j r → P i r)
    {i : I} (hv : P i v) :
    Gives (unmarking .expanderMarker v : Unmarking Expansion).visit (fun r =>
      (v.isNode → r.isNode) ∧ P i r) ∧
    Gives (unmarking .expanderMarker v : Unmarking Expansion).descend fun r =>
      r.isNode = true ∧ P i r := by
  induction v using walkInduction generalizing i with
  | node k as ih =>
    have hdescend := hnode i k as hv fun u hu j hj => (ih u hu hj).1.mono fun r hr =>
      ⟨by simp [isPiece, hr.1 (isNode_of_mem_children hu)], hr.2⟩
    refine ⟨?_, hdescend⟩
    change Gives (deleteMarkers (m := Expansion) .expanderMarker (node k as)) _
    cases hk : Kind.expanderMarker.isMarkerOf k with
    | false =>
      rw [deleteMarkers_node hk]
      exact hdescend.mono fun r hr => ⟨fun _ => hr.1, hr.2⟩
    | true =>
      rw [deleteMarkers_marker hk]
      split
      next u hu =>
        cases hn : u.isNode with
        | true =>
          have hbody : "body" ∈ k.fieldNames := by
            revert hk
            cases k <;> decide
          obtain ⟨j, hj, hup⟩ := hmarker i k as u hk hbody hv (mem_childrenAt.mpr ⟨hn, .inl hu⟩)
          exact (ih u (mem_children_of_get? hbody hu hn) hj).2.mono fun r hr =>
            ⟨fun _ => hr.1, hup r hr.2⟩
        | false =>
          cases u with
          | node => cases hn
          | _ => exact ensures_throw _
      next => exact ensures_throw _
  | rest v hn ih =>
    cases v with
    | node => cases hn
    | list xs =>
      refine ⟨?_, ensures_throw _⟩
      change Gives (deleteMarkers (m := Expansion) .expanderMarker (list xs)) _
      rw [deleteMarkers_list]
      refine (Ensures.mapM fun u hu => ?_).bind fun rs hrs => ensures_pure
        ⟨(by cases ·), (hP i).suite_iff.mpr hrs⟩
      exact (ih u hu (((hP i).list xs).mp hv u hu)).1.mono fun r hr => hr.2
    | _ => exact ⟨ensures_throw _, ensures_throw _⟩

theorem gives_unmarking (hv : v.every isSited) :
    Gives (unmarking .expanderMarker v : Unmarking Expansion).visit (fun r =>
      (v.isNode → r.isNode) ∧ r.every isSited) ∧
    Gives (unmarking .expanderMarker v : Unmarking Expansion).descend fun r =>
      r.isNode = true ∧ r.every isSited := by
  refine gives_unmarking_of (P := fun (_ : Unit) u => u.every isSited) (i := ())
    (fun _ => spreads_every) (fun _ k as h ih => ?_) (fun _ k as u _ hbody h hu => ?_) hv
  · obtain ⟨hown, hchildren⟩ := every_node.mp h
    rw [descend_node]
    refine gives_rebuild_every robust_isSited (fun name hname u hu => ?_) hown fun f hf _ c hc => ?_
    · have hmem : u ∈ children k as := mem_children.mpr ⟨name, hname, hu⟩
      exact ih u hmem () (hchildren u hmem)
    · exact hchildren c (mem_children.mpr ⟨f, hf, hc⟩)
  · exact ⟨(), (every_node.mp h).2 u (mem_children.mpr ⟨_, hbody, hu⟩), fun _ hr => hr⟩

end Value

end TreeMacros
