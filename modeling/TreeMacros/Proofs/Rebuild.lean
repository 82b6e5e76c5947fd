import TreeMacros.Expansion.World
import TreeMacros.Proofs.Action
import TreeMacros.Proofs.Children

/-!
# Changing trees where they stand

What the journal makes of changes during expansion. Where a labelled tree gets back what it held
before, nothing changes and nothing is noted down.
-/

namespace TreeMacros

open Value hiding none set
open Attrs (get? isHidden mem_set set_eq_self)

variable {v : Value} {xs : List Value} {name : String}

namespace Value

/-- What may stand in the place of a node: nothing, a node, or a list. -/
def isPiece (v : Value) : Bool := v.isNone || v.isNode || v.isList

@[simp] theorem isPiece_unlabelled (v : Value) : v.unlabelled.isPiece = v.isPiece := by
  cases v <;> simp [unlabelled, isPiece, isNone, isNode, isList]

theorem isPiece_labelled (v : Value) (n : Nat) : (v.labelled n).1.isPiece = v.isPiece := by
  rw [← isPiece_unlabelled, unlabelled_labelled, isPiece_unlabelled]

theorem isPiece_suite (xs : List Value) : (suite xs).isPiece := by
  unfold suite
  split <;> rfl

/-- What stands in a list in the place of a node. -/
def spliced : Value → List Value
  | none => []
  | list ys => ys
  | v => [v]

theorem flatten_eq (xs : List Value) : flatten xs = xs.flatMap spliced :=
  List.flatMap_congr fun v _ => by cases v <;> rfl

/-- A condition on what a list holds, not on the list itself. -/
structure Spreads (P : Value → Prop) : Prop where
  none : P none
  list : ∀ xs, P (list xs) ↔ ∀ x ∈ xs, P x

theorem Spreads.spliced_iff {P : Value → Prop} (hP : Spreads P) : (∀ y ∈ v.spliced, P y) ↔ P v := by
  cases v with
  | none => simp [spliced, hP.none]
  | list ys => exact (hP.list ys).symm
  | _ => simp [spliced]

theorem Spreads.suite_iff {P : Value → Prop} (hP : Spreads P) {rs : List Value} :
    P (suite rs) ↔ ∀ r ∈ rs, P r := by
  have hflat : (∀ y ∈ flatten rs, P y) ↔ ∀ r ∈ rs, P r := by
    rw [flatten_eq, List.forall_mem_flatMap]
    exact forall₂_congr fun r _ => hP.spliced_iff
  rw [← hflat, suite]
  cases flatten rs with
  | nil => simp [hP.none]
  | cons y ys => exact hP.list (y :: ys)

theorem suite_of_ne_nil (h : xs.flatMap spliced ≠ []) : suite xs = list (xs.flatMap spliced) := by
  rw [suite, flatten_eq]
  split
  next hnil => exact absurd hnil h
  next => rfl

theorem suite_of_isNode (hn : ∀ u ∈ xs, u.isNode) :
    suite xs = if xs.isEmpty then none else list xs := by
  have hflatten : flatten xs = xs := by
    rw [flatten_eq]
    refine Eq.trans (List.flatMap_congr fun u hu => ?_) (List.flatMap_singleton' xs)
    have hu := hn u hu
    cases u with
    | node => rfl
    | _ => cases hu
  rw [suite, hflatten]
  cases xs <;> rfl

theorem replacement_of_isPiece (h : v.isPiece) : replacement v = .ok v.spliced := by
  cases v with
  | none | node | list => rfl
  | _ => cases h

section

variable {β : Type} {m : Type → Type} [Monad m] [MonadExceptOf Error m]

theorem rebuildList_cons_node (visit : Item β → m Value) {i : Item β} (is : List (Item β))
    (h : i.value.isNode) :
    rebuildList visit (i :: is) =
      visit i >>= fun r => MonadExcept.ofExcept (replacement r) >>= fun here =>
        rebuildList visit is >>= fun rest => pure (here ++ rest) := by
  rw [rebuildList, if_pos h]
  refine bind_congr fun r => ?_
  cases replacement r <;> rfl

theorem rebuildList_cons_other [LawfulMonad m] (visit : Item β → m Value) {i : Item β}
    (is : List (Item β)) (h : i.value.isNode = false) :
    rebuildList visit (i :: is) =
      rebuildList visit is >>= fun rest => pure (i.value :: rest) := by
  rw [rebuildList, if_neg (by simp [h]), pure_bind]
  rfl

end

end Value

namespace World

def labelling (w : World) (v : Value) : World :=
  { w with journal := { w.journal with next := (v.labelled w.journal.next).2 } }

theorem labelling_of_hasLabels (h : v.hasLabels) (w : World) : w.labelling v = w := by
  rw [labelling, labelled_of_hasLabels h]

end World

namespace Act

theorem label_run (v : Value) (w : World) :
    (label v : Expansion Value) w = (.ok (v.labelled w.journal.next).1, w.labelling v) := rfl

theorem label_of_hasLabels (h : v.hasLabels) (w : World) :
    (label v : Expansion Value) w = (.ok v, w) := by
  rw [label_run, labelled_of_hasLabels h, World.labelling_of_hasLabels h]

theorem welcome_of_hasLabels (h : v.hasLabels) (w : World) :
    (welcome v : Expansion Value) w = (.ok v, w) := by
  unfold welcome
  cases v.label? with
  | some n => rfl
  | none => exact label_of_hasLabels h w

theorem mapM_welcome (h : ∀ x ∈ xs, x.hasLabels) (w : World) :
    (xs.mapM welcome : Expansion (List Value)) w = (.ok xs, w) := by
  induction xs with
  | nil => rfl
  | cons x xs ih =>
    rw [List.mapM_cons, bind_ok (welcome_of_hasLabels (h x (by simp)) w),
      bind_ok (ih fun y hy => h y (by simp [hy]))]
    rfl

theorem assign_of_get? {k : Kind} {as : Attrs} (hl : (node k as).hasLabels)
    (hn : v.isNode) (h : get? as name = some v) (w : World) :
    (assign as name v : Expansion Attrs) w = (.ok as, w) := by
  have hv := hasLabels_of_get? hl h
  obtain ⟨n, hlabel⟩ := Option.isSome_iff_exists.mp (hasLabels_node.mp hl).1
  cases v with
  | node c bs =>
    obtain ⟨m, hm⟩ := Option.isSome_iff_exists.mp (hasLabels_node.mp hv).1
    have hm : (node c bs).label? = some m := hm
    simp only [assign, hlabel]
    rw [bind_ok (welcome_of_hasLabels hv w)]
    simp [h, hm, set_eq_self h]
  | _ => cases hn

theorem refill_of_get? {k : Kind} {as : Attrs} (hl : (node k as).hasLabels)
    (h : get? as name = some (.list xs)) (w : World) :
    (refill as name xs : Expansion Attrs) w = (.ok as, w) := by
  have hxs := hasLabels_list.mp (hasLabels_of_get? hl h)
  unfold refill
  cases Attrs.listLabel? as name with
  | none => rw [set_eq_self h]; rfl
  | some l =>
    simp only
    rw [bind_ok (mapM_welcome hxs w)]
    simp [h, set_eq_self h]

end Act

/-! ## What becomes of a node -/

section

open Act (Ensures ensures_pure ensures_throw)

variable {P : World → Prop} {k : Kind} {as : Attrs} {name : String}

/-- The attributes after one of them has got another value, or none. -/
structure Revised (k : Kind) (as : Attrs) (name : String) (v : Option Value) (bs : Attrs) : Prop where
  hasLabels : (node k bs).hasLabels = true
  get? : ∀ f, isHidden f = false → get? bs f = if f = name then v else get? as f

theorem revised_set (hl : (node k as).hasLabels) (hname : isHidden name = false)
    (hv : v.hasLabels) : Revised k as name (some v) (Attrs.set as name v) := by
  obtain ⟨hlabel, hattrs⟩ := hasLabels_node.mp hl
  refine ⟨hasLabels_node.mpr ⟨?_, fun b hb => ?_⟩, fun f _ => Attrs.get?_set as name f v⟩
  · rw [Attrs.label?_set hname, hlabel]
  · rcases mem_set hb with hb | rfl
    · exact hattrs b hb
    · exact hv

theorem revised_erase (hl : (node k as).hasLabels)
    (hname : isHidden name = false) : Revised k as name none (Attrs.erase as name) := by
  obtain ⟨hlabel, hattrs⟩ := hasLabels_node.mp hl
  refine ⟨hasLabels_node.mpr ⟨?_, fun b hb => ?_⟩, fun f _ => Attrs.get?_erase as name f⟩
  · rw [Attrs.label?_erase hname, hlabel]
  · exact hattrs b (List.mem_filter.mp hb).1

theorem Revised.setListLabel {v : Option Value} {bs : Attrs} (h : Revised k as name v bs)
    (other : String) (n : Int) :
    Revised k as name v (Attrs.set bs (Attrs.listLabelName other) (.int n)) := by
  obtain ⟨hlabel, hattrs⟩ := hasLabels_node.mp h.hasLabels
  refine ⟨hasLabels_node.mpr ⟨Attrs.isSome_label?_set_int hlabel _ n, fun b hb => ?_⟩,
    fun f hf => ?_⟩
  · rcases mem_set hb with hb | rfl
    · exact hattrs b hb
    · rfl
  · have hne : f ≠ Attrs.listLabelName other := by
      rintro rfl
      rw [Attrs.isHidden_listLabelName] at hf
      cases hf
    rw [Attrs.get?_set, if_neg hne, h.get? f hf]

theorem ensures_welcome (hv : v.hasLabels) : Ensures P (Act.welcome v) fun u => u = v := by
  intro w u t hw hrun
  rw [Act.welcome_of_hasLabels hv] at hrun
  cases hrun
  exact ⟨hw, rfl⟩

variable (hP : ∀ w journal, P w → P { w with journal })

include hP

theorem ensures_note (c : Change) : Ensures P (Act.note c) fun _ => True := by
  intro w a t hw hrun
  cases hrun
  exact ⟨hP w _ hw, trivial⟩

theorem ensures_assign (hl : (node k as).hasLabels) (hname : isHidden name = false)
    (hv : v.hasLabels) : Ensures P (Act.assign as name v) (Revised k as name (some v)) := by
  have hset := revised_set hl hname hv
  unfold Act.assign
  split
  · exact ensures_pure hset
  next n _ =>
    refine (ensures_welcome hv).bind fun u hu => ?_
    subst hu
    simp only
    split
    · refine Ensures.bind (Q := fun _ => True) ?_ fun own _ => (ensures_note hP _).bind fun _ _ =>
        (ensures_note hP _).bind fun _ _ => ensures_pure (hset.setListLabel name own)
      intro w a t hw hrun
      cases hrun
      exact ⟨hP w _ hw, trivial⟩
    · exact ((ensures_note hP _).bind fun _ _ => ensures_pure hset).ite (ensures_pure hset)

theorem ensures_unset (hl : (node k as).hasLabels)
    (hname : isHidden name = false) :
    Ensures P (Act.unset as name) (Revised k as name none) := by
  have herase := revised_erase hl hname
  unfold Act.unset
  split
  · exact ensures_pure herase
  · exact (ensures_note hP _).bind fun _ _ => ensures_pure herase

theorem ensures_refill (hl : (node k as).hasLabels) (hname : isHidden name = false)
    (hxs : ∀ x ∈ xs, x.hasLabels) :
    Ensures P (Act.refill as name xs) (Revised k as name (some (.list xs))) := by
  have hset := revised_set hl hname (hasLabels_list.mpr hxs)
  unfold Act.refill
  split
  · exact ensures_pure hset
  · have hmap : Ensures P (xs.mapM Act.welcome) fun ys => ys = xs := by
      intro w ys t hw hrun
      rw [Act.mapM_welcome hxs] at hrun
      cases hrun
      exact ⟨hw, rfl⟩
    refine hmap.bind fun ys hys => ?_
    subst hys
    exact ((ensures_note hP _).bind fun _ _ => ensures_pure hset).ite (ensures_pure hset)

variable {Good : Value → Prop} {onNode : Kind → Attrs → Parts (Expansion Value) → Expansion Value}
  {onRest : Value → List (Item (Expansion Value)) → List (Item (Expansion Value)) → Expansion Value}

omit hP in
theorem ensures_replacement (hlab : ∀ v, Good v → v.hasLabels)
    (hel : ∀ v xs, Good v → v.elements? = some xs →
      ∀ u ∈ xs, u.hasLabels ∧ (u.isNode → Good u)) {r : Value} (hr : Good r) :
    Ensures P (MonadExcept.ofExcept (replacement r) : Expansion _) fun here =>
      ∀ y ∈ here, y.hasLabels ∧ (y.isNode → Good y) := by
  cases r with
  | none => exact ensures_pure (by simp)
  | node k as => exact ensures_pure (by simpa using ⟨hlab _ hr, fun _ => hr⟩)
  | _ =>
    simp only [replacement, elements]
    split
    next xs hxs => exact ensures_pure (hel _ xs hr hxs)
    next => exact ensures_throw _

omit hP in
theorem ensures_rebuildList (hlab : ∀ v, Good v → v.hasLabels)
    (hel : ∀ v xs, Good v → v.elements? = some xs →
      ∀ u ∈ xs, u.hasLabels ∧ (u.isNode → Good u))
    (hxs : ∀ u ∈ xs, u.hasLabels)
    (h : ∀ u ∈ xs, u.isNode → Ensures P (u.fold onNode onRest) Good) :
    Ensures P (rebuildList (·.result) (foldItems onNode onRest xs)) fun ys =>
      ∀ y ∈ ys, y.hasLabels ∧ (y.isNode → Good y) := by
  induction xs with
  | nil => exact ensures_pure (by simp)
  | cons u xs ih =>
    have htail := ih (fun v hv => hxs v (by simp [hv])) fun v hv => h v (by simp [hv])
    rw [foldItems]
    cases hu : u.isNode with
    | true =>
      rw [rebuildList_cons_node _ _ hu]
      refine (h u (by simp) hu).bind fun r hr => ?_
      refine (ensures_replacement hlab hel hr).bind fun here hhere => htail.bind fun ys hys =>
        ensures_pure fun y hy => ?_
      rcases List.mem_append.mp hy with hy | hy
      · exact hhere y hy
      · exact hys y hy
    | false =>
      rw [rebuildList_cons_other _ _ hu]
      refine htail.bind fun ys hys => ensures_pure fun y hy => ?_
      rcases List.mem_cons.mp hy with rfl | hy
      · exact ⟨hxs y (by simp), fun hn => by rw [hu] at hn; cases hn⟩
      · exact hys y hy

/-- One attribute has been visited: the others are as before, and its children are good. -/
structure Visited (Good : Value → Prop) (k : Kind) (as : Attrs) (name : String) (bs : Attrs) :
    Prop where
  hasLabels : (node k bs).hasLabels = true
  get? : ∀ f, isHidden f = false → f ≠ name → get? bs f = get? as f
  good : ∀ c ∈ childrenAt bs name, Good c

omit hP in
theorem Revised.visited {v : Option Value} {bs : Attrs} (h : Revised k as name v bs)
    (hname : isHidden name = false) (hnode : ∀ c, v = some c → c.isNode → Good c)
    (hlist : ∀ xs, v = some (.list xs) → ∀ c ∈ xs, c.isNode → Good c) :
    Visited Good k as name bs := by
  have hhere := h.get? name hname
  rw [if_pos rfl] at hhere
  refine ⟨h.hasLabels, fun f hf hne => by rw [h.get? f hf, if_neg hne], fun c hc => ?_⟩
  obtain ⟨hn, hc | ⟨xs, hxs, hc⟩⟩ := mem_childrenAt.mp hc
  · exact hnode c (hhere ▸ hc) hn
  · exact hlist xs (hhere ▸ hxs) c hc hn

theorem ensures_rebuildAttr (hlab : ∀ v, Good v → v.hasLabels)
    (hel : ∀ v xs, Good v → v.elements? = some xs →
      ∀ u ∈ xs, u.hasLabels ∧ (u.isNode → Good u)) (hl : (node k as).hasLabels)
    (hname : isHidden name = false) (hv : get? as name = some v)
    (h : ∀ u ∈ childrenAt as name, Ensures P (u.fold onNode onRest) Good) :
    Ensures P (rebuildAttr (·.result) as name (foldPart onNode onRest v))
      (Visited Good k as name) := by
  have hvl := hasLabels_of_get? hl hv
  cases v with
  | list xs =>
    have hxs := hasLabels_list.mp hvl
    refine (ensures_rebuildList hlab hel hxs fun u hu hn =>
      h u (mem_childrenAt.mpr ⟨hn, .inr ⟨xs, hv, hu⟩⟩)).bind fun ys hys => ?_
    intro w bs t hw hrun
    obtain ⟨ht, hbs⟩ := ensures_refill hP hl hname (fun y hy => (hys y hy).1) w bs t hw hrun
    refine ⟨ht, hbs.visited hname ?_ ?_⟩
    · rintro c hc hn
      cases hc
      cases hn
    · rintro zs hzs c hc hn
      cases hzs
      exact (hys c hc).2 hn
  | node j bs =>
    refine (h _ (mem_childrenAt.mpr ⟨rfl, .inl hv⟩)).bind fun r hr => ?_
    split
    · intro w cs t hw hrun
      obtain ⟨ht, hcs⟩ := ensures_unset hP hl hname w cs t hw hrun
      exact ⟨ht, hcs.visited hname (by simp) (by simp)⟩
    · intro w cs t hw hrun
      obtain ⟨ht, hcs⟩ := ensures_assign hP hl hname (hlab r hr) w cs t hw hrun
      refine ⟨ht, hcs.visited hname ?_ ?_⟩
      · rintro c hc -
        cases hc
        exact hr
      · rintro xs hxs c hc hn
        cases hxs
        exact (hel _ xs hr rfl c hc).2 hn
  | _ =>
    refine ensures_pure ⟨hl, fun _ _ _ => rfl, fun c hc => ?_⟩
    simp [childrenAt, hv] at hc

/-- A node that is put together again has good children if the visits to its children end well. -/
theorem ensures_rebuild (hlab : ∀ v, Good v → v.hasLabels)
    (hel : ∀ v xs, Good v → v.elements? = some xs →
      ∀ u ∈ xs, u.hasLabels ∧ (u.isNode → Good u))
    (hl : (node k as).hasLabels)
    (h : ∀ u ∈ children k as, Ensures P (u.fold onNode onRest) Good) :
    Ensures P (rebuild (fun _ (i : Item (Expansion Value)) => i.result) k as
      (foldAttrs onNode onRest as)) fun r =>
        ∃ bs, r = .node k bs ∧ r.hasLabels ∧ ∀ c ∈ children k bs, Good c := by
  -- The fields still to come are as they were; those done with have good children.
  have hgo : ∀ names, names.Nodup → (∀ f ∈ names, f ∈ k.fieldNames) → ∀ bs,
      (node k bs).hasLabels → (∀ f ∈ names, get? bs f = get? as f) →
      (∀ f ∈ k.fieldNames, f ∉ names → ∀ c ∈ childrenAt bs f, Good c) →
      Ensures P (rebuild.go (fun _ (i : Item (Expansion Value)) => i.result)
        (foldAttrs onNode onRest as) names bs) fun cs =>
          (node k cs).hasLabels = true ∧
            ∀ f ∈ k.fieldNames, ∀ c ∈ childrenAt cs f, Good c := by
    intro names hnodup hnames
    induction names with
    | nil =>
      intro bs hbs _ hdone
      exact ensures_pure ⟨hbs, fun f hf => hdone f hf (by simp)⟩
    | cons name names ih =>
      intro bs hbs hcome hdone
      obtain ⟨hnot, hnodup⟩ := List.nodup_cons.mp hnodup
      have hfield := hnames name (by simp)
      have hhidden := Kind.isHidden_of_mem hfield
      have hnext := ih hnodup fun f hf => hnames f (by simp [hf])
      have hhere : get? bs name = get? as name := hcome name (by simp)
      have hsame : childrenAt bs name = childrenAt as name := by
        rw [childrenAt, hhere, ← childrenAt]
      rw [rebuild.go, lookup_foldAttrs]
      cases hv : get? as name with
      | none =>
        refine hnext bs hbs (fun f hf => hcome f (by simp [hf])) fun f hf hfn c hc => ?_
        by_cases hfname : f = name
        · subst hfname
          rw [hsame] at hc
          simp [childrenAt, hv] at hc
        · exact hdone f hf (by simp [hfname, hfn]) c hc
      | some v =>
        refine (ensures_rebuildAttr hP hlab hel hbs hhidden (hhere.trans hv) fun u hu =>
          h u (mem_children.mpr ⟨name, hfield, hsame ▸ hu⟩)).bind fun cs hcs => ?_
        refine hnext cs hcs.hasLabels (fun f hf => ?_) fun f hf hfn c hc => ?_
        · have hne : f ≠ name := fun e => hnot (e ▸ hf)
          rw [hcs.get? f (Kind.isHidden_of_mem (hnames f (by simp [hf]))) hne,
            hcome f (by simp [hf])]
        · by_cases hfname : f = name
          · subst hfname
            exact hcs.good c hc
          · have hget := hcs.get? f (Kind.isHidden_of_mem hf) hfname
            rw [childrenAt, hget, ← childrenAt] at hc
            exact hdone f hf (by simp [hfname, hfn]) c hc
  refine (hgo _ k.fieldNames_nodup (fun _ hf => hf) as hl (fun _ _ => rfl)
    fun f hf hfn => absurd hf hfn).bind fun bs hbs => ensures_pure ⟨bs, rfl, hbs.1, fun c hc => ?_⟩
  obtain ⟨f, hf, hc⟩ := mem_children.mp hc
  exact hbs.2 f hf c hc

end

end TreeMacros
