import TreeMacros.Expansion.Expander
import TreeMacros.Proofs.Lifting
import TreeMacros.Proofs.Rebuild

/-!
# What a visit does to the state

`World.Admits` lists what expansion does to the state step by step. A relation that admits these
steps relates the state before a visit to the state after it, whatever macros do and also if the
visit fails.

More generally, two ways to expand may differ in what they do with invocations. If what they do there
has the same outcome from the states with `P`, and the relation allows what they do, then so it is
with a visit. `P` has to outlast what else there is to a visit.
-/

namespace TreeMacros

open Value hiding none set
open Attrs (get?)
open Act (Keeps)

variable {as : Attrs} {name : String} {v : Value} {k : Kind}

/-- A relation between states that allows trees to be labelled and changed. -/
class World.AdmitsJournal (R : World → World → Prop) : Prop extends IsPreorder World R where
  journal : ∀ w journal, R w { w with journal }

/-- A relation between states that allows records: trees are labelled and changed, and there is
something to tell. -/
class World.AdmitsRecords (R : World → World → Prop) : Prop extends IsPreorder World R where
  records : ∀ w journal counts log warnings printed,
    R w { w with journal, counts, log, warnings, printed }

instance (R : World → World → Prop) [World.AdmitsRecords R] : World.AdmitsJournal R where
  journal w journal :=
    World.AdmitsRecords.records w journal w.counts w.log w.warnings w.printed

/-- A relation between states that allows what expansion does. -/
class World.Admits (R : World → World → Prop) : Prop extends World.AdmitsRecords R where
  fresh : ∀ (w : World) base, R w { w with names := (w.names.fresh base).2 }
  /-- A macro is bound globally, to a fresh name. -/
  capture : ∀ (w : World) base b, b.isTruthy = true →
    R w { w with
      names := (w.names.fresh base).2
      globals := Bindings.insert w.globals (w.names.fresh base).1 b }
  mode : ∀ (w t : World) recursive, R { w with recursive } t →
    R w { t with recursive := w.recursive }
  quoteLevel : ∀ (w t : World) quoteLevels, R { w with quoteLevels } t →
    R w { t with quoteLevels := w.quoteLevels }
  stepLevel : ∀ (w t : World) stepLevels, R { w with stepLevels } t →
    R w { t with stepLevels := w.stepLevels }

/-- A condition on the states in which an expansion starts, and a relation that allows records and
the change of the mode within a section. -/
class World.Allows (P : World → Prop) (R : World → World → Prop) : Prop extends
    World.AdmitsRecords R, Act.Stable P R where
  enter : ∀ (w : World) recursive, P w → P { w with recursive }
  mode : ∀ (w t : World) recursive, R { w with recursive } t →
    R w { t with recursive := w.recursive }

open World (Admits AdmitsJournal AdmitsRecords Allows)
open Act (Keeps keeps_pure keeps_throw keeps_get keeps_lift Agree agree_pure agree_throw agree_get
  agree_lift agree_of_keeps)

instance (R : World → World → Prop) [Admits R] : Allows (fun _ => True) R where
  stable _ _ h _ := h
  enter _ _ h := h
  mode := Admits.mode

section

variable {R : World → World → Prop} [AdmitsJournal R] {α : Type}

/-! ## Changes to trees -/

theorem keeps_label (v : Value) : Keeps R (Act.label v) := fun w => AdmitsJournal.journal w _

theorem keeps_changeNote (c : Change) : Keeps R (Act.note c) := fun w => AdmitsJournal.journal w _

theorem keeps_onJournal (act : Act Journal α) : Keeps R (Act.onJournal act) :=
  fun w => AdmitsJournal.journal w _

theorem keeps_welcome (v : Value) : Keeps R (Act.welcome v) := by
  unfold Act.welcome
  split
  · exact keeps_pure v
  · exact keeps_label v

theorem keeps_assign (as : Attrs) (name : String) (v : Value) :
    Keeps R (Act.assign as name v) := by
  unfold Act.assign
  split
  · exact keeps_pure _
  · refine (keeps_welcome v).bind fun u => ?_
    simp only
    split
    · refine Keeps.bind ?_ fun _ => (keeps_changeNote _).bind fun _ =>
        (keeps_changeNote _).bind fun _ => keeps_pure _
      exact fun w => AdmitsJournal.journal w _
    · exact ((keeps_changeNote _).bind fun _ => keeps_pure _).ite (keeps_pure _)

theorem keeps_unset (as : Attrs) (name : String) : Keeps R (Act.unset as name) := by
  unfold Act.unset
  split
  · exact keeps_pure _
  · exact (keeps_changeNote _).bind fun _ => keeps_pure _

theorem keeps_refill (as : Attrs) (name : String) (xs : List Value) :
    Keeps R (Act.refill as name xs) := by
  unfold Act.refill
  split
  · exact keeps_pure _
  · refine (Keeps.mapM fun x _ => keeps_welcome x).bind fun ys => ?_
    exact ((keeps_changeNote _).bind fun _ => keeps_pure _).ite (keeps_pure _)

section

variable {P : World → Prop} [Act.Stable P R] {β β' : Type} {onNode : Kind → Attrs → Parts β → β}
  {onNode' : Kind → Attrs → Parts β' → β'}
  {onRest : Value → List (Item β) → List (Item β) → β}
  {onRest' : Value → List (Item β') → List (Item β') → β'}

omit [AdmitsJournal R] in
theorem agree_rebuildList {visit : Item β → Expansion Value} {visit' : Item β' → Expansion Value}
    {xs : List Value} (h : ∀ u ∈ xs, u.isNode →
      Agree P R (visit ⟨u, u.fold onNode onRest⟩) (visit' ⟨u, u.fold onNode' onRest'⟩)) :
    Agree P R (rebuildList visit (foldItems onNode onRest xs))
      (rebuildList visit' (foldItems onNode' onRest' xs)) := by
  induction xs with
  | nil => exact agree_pure _
  | cons u xs ih =>
    have htail := ih fun v hv => h v (by simp [hv])
    rw [foldItems, foldItems]
    cases hu : u.isNode with
    | true =>
      rw [rebuildList_cons_node _ _ hu, rebuildList_cons_node _ _ hu]
      refine (h u (by simp) hu).bind fun r => Agree.bind ?_ fun _ => htail.bind fun _ =>
        agree_pure _
      cases replacement r with
      | ok => exact agree_pure _
      | error => exact agree_throw _
    | false =>
      rw [rebuildList_cons_other _ _ hu, rebuildList_cons_other _ _ hu]
      exact htail.bind fun _ => agree_pure _

theorem agree_rebuildAttr {visit : Item β → Expansion Value} {visit' : Item β' → Expansion Value}
    (hnode : v.isNode →
      Agree P R (visit ⟨v, v.fold onNode onRest⟩) (visit' ⟨v, v.fold onNode' onRest'⟩))
    (hitems : ∀ xs, v = .list xs → ∀ u ∈ xs, u.isNode →
      Agree P R (visit ⟨u, u.fold onNode onRest⟩) (visit' ⟨u, u.fold onNode' onRest'⟩)) :
    Agree P R (rebuildAttr visit as name (foldPart onNode onRest v))
      (rebuildAttr visit' as name (foldPart onNode' onRest' v)) := by
  cases v with
  | list xs =>
    exact (agree_rebuildList (hitems xs rfl)).bind fun _ => agree_of_keeps (keeps_refill _ _ _)
  | node k bs =>
    refine (hnode rfl).bind fun r => ?_
    split
    · exact agree_of_keeps (keeps_unset _ _)
    · exact agree_of_keeps (keeps_assign _ _ _)
  | _ => exact agree_pure _

theorem agree_rebuild {visit : String → Item β → Expansion Value}
    {visit' : String → Item β' → Expansion Value} {bs : Attrs} (h : ∀ name, ∀ u ∈ children k bs,
      Agree P R (visit name ⟨u, u.fold onNode onRest⟩)
        (visit' name ⟨u, u.fold onNode' onRest'⟩)) :
    Agree P R (rebuild visit k as (foldAttrs onNode onRest bs))
      (rebuild visit' k as (foldAttrs onNode' onRest' bs)) := by
  refine Agree.bind ?_ fun _ => agree_pure _
  have hgo : ∀ names, (∀ name ∈ names, name ∈ k.fieldNames) → ∀ as,
      Agree P R (rebuild.go visit (foldAttrs onNode onRest bs) names as)
        (rebuild.go visit' (foldAttrs onNode' onRest' bs) names as) := by
    intro names hnames
    induction names with
    | nil => exact fun as => agree_pure as
    | cons name names ih =>
      intro as
      have hname := hnames name (by simp)
      have htail := ih fun n hn => hnames n (by simp [hn])
      rw [rebuild.go, rebuild.go, lookup_foldAttrs, lookup_foldAttrs]
      cases hv : get? bs name with
      | none => exact htail as
      | some v =>
        refine (agree_rebuildAttr (fun hn => ?_) fun xs hxs u hu hn => ?_).bind htail
        · exact h name v (mem_children_of_get? hname hv hn)
        · exact h name u (mem_children_of_mem hname (hxs ▸ hv) hu hn)
  exact hgo _ (fun _ hn => hn) as

theorem keeps_rebuild {visit : String → Item β → Expansion Value} {bs : Attrs}
    (h : ∀ name, ∀ u ∈ children k bs, Keeps R (visit name ⟨u, u.fold onNode onRest⟩)) :
    Keeps R (rebuild visit k as (foldAttrs onNode onRest bs)) :=
  (agree_rebuild fun name u hu => agree_of_keeps (h name u hu)).keeps

end

theorem keeps_placeAttr (mode : LocationMode) (as : Attrs) (name : String) (reference : Value) :
    Keeps R (placeAttr mode as name reference : Expansion _) := by
  unfold placeAttr
  split
  · exact (keeps_assign _ _ _).bind fun _ => keeps_pure _
  · exact (keeps_assign _ _ _).bind fun _ => keeps_pure _
  · exact keeps_pure _
  · exact keeps_pure _

theorem keeps_place (mode : LocationMode) (v line column : Value) :
    Keeps R (v.place mode line column : Expansion Value) := by
  induction v using walkInduction generalizing line column with
  | node k as ih =>
    refine Keeps.bind ?_ fun (bs, line, column) => keeps_rebuild fun _ u hu => ih u hu line column
    refine Keeps.ite ?_ (keeps_pure _)
    exact (keeps_placeAttr mode as "lineno" line).bind fun _ =>
      (keeps_placeAttr mode _ "col_offset" column).bind fun _ => keeps_pure _
  | rest v hn ih =>
    cases v with
    | node => cases hn
    | list xs =>
      rw [place, fold_list, foldItems_eq]
      refine Keeps.bind (Keeps.mapM fun i hi => ?_) fun _ => keeps_pure _
      obtain ⟨u, hu, rfl⟩ := List.mem_map.mp hi
      exact ih u hu line column
    | none => exact keeps_pure _
    | _ => exact keeps_throw _

theorem keeps_fixLocations (mode : LocationMode) (reference v : Value) :
    Keeps R (fixLocations mode reference v : Expansion Value) := by
  unfold fixLocations
  split
  · exact keeps_place _ _ _ _
  · exact keeps_pure _

theorem keeps_placeContexts (v : Value) (c : Context) :
    Keeps R (v.placeContexts c : Expansion Value) := by
  induction v using walkInduction generalizing c with
  | node k as ih =>
    rw [placeContexts, fold_node]
    refine Keeps.ite (Keeps.bind (keeps_assign _ _ _) fun bs => ?_)
      (Keeps.bind (keeps_pure _) fun bs => ?_)
    all_goals
      simp only
      split
      · exact keeps_throw _
      · exact keeps_rebuild fun _ u hu => ih u hu _
  | rest v hn ih =>
    cases v with
    | node => cases hn
    | list xs =>
      rw [placeContexts, fold_list, foldItems_eq]
      refine Keeps.bind (Keeps.mapM fun i hi => ?_) fun _ => keeps_pure _
      obtain ⟨u, hu, rfl⟩ := List.mem_map.mp hi
      exact ih u hu c
    | _ => exact keeps_throw _

end

section

variable {R : World → World → Prop} [AdmitsRecords R] {α : Type}

/-! ## Detection -/

theorem keeps_bound? (x : Expander) (name : Value) : Keeps R (x.bound? name) := by
  unfold Expander.bound?
  refine Keeps.ite ((keeps_throw _).bind fun _ => ?_) ?_
  all_goals
    split
    · exact keeps_get.bind fun _ => keeps_pure _
    · exact keeps_pure _

theorem keeps_invocable? (x : Expander) (name : Value) : Keeps R (x.invocable? name) := by
  unfold Expander.invocable?
  refine (keeps_pure _).ite ((keeps_bound? x name).bind fun b => ?_)
  cases b with
  | none => exact keeps_pure _
  | some b => exact keeps_pure _

theorem keeps_isCall (x : Expander) (name args : Value) (form : Form) :
    Keeps R (x.isCall name args form) := by
  refine (keeps_invocable? x name).bind fun b => ?_
  cases b with
  | none => exact keeps_pure _
  | some b => cases form <;> exact keeps_pure _

theorem keeps_warn (warning : Warning) : Keeps R (Expansion.warn warning) :=
  fun w => AdmitsRecords.records w w.journal w.counts w.log _ w.printed

theorem keeps_isMacroItem (x : Expander) (form : Form) (item : Value) :
    Keeps R (x.isMacroItem form item) := by
  refine (keeps_lift _).bind fun c => (keeps_lift _).bind fun c => ?_
  rcases c with _ | ⟨name, args⟩
  · exact keeps_pure _
  · refine (keeps_invocable? x name).bind fun b => ?_
    cases b with
    | none => exact keeps_pure _
    | some b =>
      refine Keeps.ite ((keeps_lift _).bind fun _ => ?_) (keeps_isCall x name args form)
      refine Keeps.ite ((keeps_throw _).bind fun _ => ?_) ?_
      all_goals exact (keeps_warn _).bind fun _ => keeps_isCall x name args form

theorem keeps_detect (x : Expander) (form : Form) (items : Value) :
    Keeps R (x.detect form items) :=
  (keeps_lift _).bind fun _ =>
    Keeps.mapM fun item _ => (keeps_isMacroItem x form item).bind fun _ => keeps_pure _

end

/-! ## Collection -/

namespace Collection

variable {S : Collection → Collection → Prop} [IsPreorder Collection S] {x : Expander}

/-- All ways to come to a tree do no more than the relation allows. -/
structure Scan.Keeps (S : Collection → Collection → Prop) (s : Scan) : Prop where
  visit : Act.Keeps S s.visit
  visitValue : Act.Keeps S s.visitValue
  visitArguments : Act.Keeps S s.visitArguments
  visitValueArguments : Act.Keeps S s.visitValueArguments
  visitOwnArguments : Act.Keeps S s.visitOwnArguments
  visitHeaderArguments : Act.Keeps S s.visitHeaderArguments

theorem keeps_partScan {parts : Parts Scan} {f : Scan → M Unit}
    (h : ∀ p, parts.lookup name = some p → Keeps S (f p.result)) :
    Keeps S (partScan parts v name f) := by
  refine (keeps_lift _).bind fun _ => ?_
  split
  next p hp => exact h p hp
  next => exact keeps_pure _

private theorem keeps_scan_visitItems (hdetect : ∀ form items, Keeps S (lift (x.detect form items)))
    (hadd : ∀ name form, Keeps S (add name form)) {form : Form} {parts : Parts Scan}
    {field : String} {arguments : Scan → M Unit} {rest : M Unit}
    (hitems : ∀ p, parts.lookup field = some p → ∀ i ∈ p.items,
      Keeps S i.result.visit ∧ Keeps S (arguments i.result))
    (hchildren : Keeps S (visitChildren k parts)) (hrest : Keeps S rest) :
    Keeps S (visitItems x form k parts v field arguments rest) := by
  refine (keeps_lift _).bind fun items => (hdetect form items).bind fun detected => ?_
  refine Keeps.ite ?_ hchildren
  refine (Keeps.forIn fun m hm _ => ?_).bind fun _ =>
    (Keeps.forIn fun m hm _ => ?_).bind fun _ => hrest
  all_goals
    have hm : Keeps S m.1.result.visit ∧ Keeps S (arguments m.1.result) := by
      have hi := (List.of_mem_zip hm).1
      split at hi
      next p hp => exact hitems p hp m.1 hi
      next => cases hi
  · refine Keeps.ite ?_ (keeps_pure _)
    refine (keeps_lift _).bind fun c => (keeps_lift _).bind fun c => ?_
    rcases c with _ | ⟨name, args⟩
    · exact keeps_pure _
    · exact (hadd name form).bind fun _ => hm.2.bind fun _ => keeps_pure _
  · exact (hm.1.bind fun _ => keeps_pure _).ite (keeps_pure _)

theorem keeps_visitFieldsExcept {parts : Parts Scan} {names : List String}
    (h : ∀ name p, parts.lookup name = some p → Keeps S p.result.visit) :
    Keeps S (visitFieldsExcept parts v names) := by
  refine Keeps.forM fun (name, _) _ => ?_
  simp only
  split
  next p hp => exact h name p hp
  next => exact keeps_pure _

private theorem keeps_visitNode (hcall : ∀ name args form, Keeps S (lift (x.isCall name args form)))
    (hdetect : ∀ form items, Keeps S (lift (x.detect form items)))
    (hadd : ∀ name form, Keeps S (add name form)) {parts : Parts Scan}
    (hparts : ∀ name p, parts.lookup name = some p → Scan.Keeps S p.result ∧
      ∀ i ∈ p.items, Scan.Keeps S i.result) (hchildren : Keeps S (visitChildren k parts)) :
    Keeps S (visitNode x k as parts) := by
  unfold visitNode
  split
  · refine (keeps_lift _).bind fun _ => (keeps_lift _).bind fun c => ?_
    rcases c with _ | ⟨name, args⟩
    · exact hchildren
    · refine (hcall name args .expr).bind fun _ => Keeps.ite ?_ hchildren
      exact (hadd name .expr).bind fun _ =>
        (keeps_partScan fun p hp => (hparts _ p hp).1.visitOwnArguments).bind fun _ =>
          keeps_partScan fun p hp => (hparts _ p hp).1.visitValue
  · refine keeps_scan_visitItems hdetect hadd (fun p hp i hi => ?_) hchildren
      (keeps_partScan fun p hp => (hparts _ p hp).1.visit)
    exact ⟨((hparts _ p hp).2 i hi).visit, ((hparts _ p hp).2 i hi).visitHeaderArguments⟩
  · refine keeps_scan_visitItems hdetect hadd (fun p hp i hi => ?_) hchildren
      (keeps_visitFieldsExcept fun name p hp => (hparts name p hp).1.visit)
    exact ⟨((hparts _ p hp).2 i hi).visit, ((hparts _ p hp).2 i hi).visitOwnArguments⟩
  · refine keeps_scan_visitItems hdetect hadd (fun p hp i hi => ?_) hchildren
      (keeps_visitFieldsExcept fun name p hp => (hparts name p hp).1.visit)
    exact ⟨((hparts _ p hp).2 i hi).visit, ((hparts _ p hp).2 i hi).visitOwnArguments⟩
  · refine (keeps_lift _).bind fun name => (hcall name .none .name).bind fun _ => ?_
    exact (hadd name .name).ite (keeps_pure _)
  · exact (keeps_lift _).bind fun _ => hchildren
  · exact hchildren

/-- What a collection does is put together from detections and additions. -/
theorem keeps_scan (hcall : ∀ name args form, Keeps S (lift (x.isCall name args form)))
    (hdetect : ∀ form items, Keeps S (lift (x.detect form items)))
    (hadd : ∀ name form, Keeps S (add name form)) (v : Value) :
    Scan.Keeps S (v.fold (scanNode x) fun v items _ => scanRest x v items) := by
  induction hsize : sizeOf v using Nat.strongRecOn generalizing v with
  | ind n ih =>
    subst hsize
    cases v with
    | node k as =>
      have hsmall : ∀ name u, get? as name = some u → sizeOf u < sizeOf (node k as) :=
        fun _ _ hu => sizeOf_lt_of_mem_held (mem_held_of_get? hu)
      have hparts : ∀ name p, (foldAttrs (scanNode x) (fun v items _ => scanRest x v items)
          as).lookup name = some p →
          Scan.Keeps S p.result ∧ ∀ i ∈ p.items, Scan.Keeps S i.result := by
        intro name p hp
        rw [lookup_foldAttrs] at hp
        obtain ⟨u, hu, rfl⟩ := Option.map_eq_some_iff.mp hp
        refine ⟨ih _ (hsmall name u hu) u rfl, fun i hi => ?_⟩
        obtain ⟨t, ht, rfl⟩ := mem_items_foldPart _ _ hi
        exact ih _ (Nat.lt_trans (sizeOf_lt_of_mem_held ht) (hsmall name u hu)) t rfl
      have hchildren : Keeps S (visitChildren k (foldAttrs (scanNode x)
          (fun v items _ => scanRest x v items) as)) := by
        rw [visitChildren, childItems_foldAttrs]
        refine Keeps.forM fun i hi => ?_
        obtain ⟨u, hu, rfl⟩ := List.mem_map.mp hi
        exact (ih _ (sizeOf_lt_of_mem_children hu) u rfl).visit
      have hvisit : Keeps S (scanNode x k as (foldAttrs (scanNode x)
          (fun v items _ => scanRest x v items) as)).visit :=
        keeps_get.bind fun _ =>
          (keeps_pure _).ite (keeps_visitNode hcall hdetect hadd hparts hchildren)
      rw [fold_node]
      exact ⟨hvisit, keeps_partScan fun p hp => (hparts _ p hp).1.visit,
        (keeps_partScan fun p hp => (hparts _ p hp).1.visit).ite hvisit,
        keeps_partScan fun p hp => (hparts _ p hp).1.visitArguments,
        (keeps_partScan fun p hp => (hparts _ p hp).1.visitValueArguments).ite (keeps_pure _),
        keeps_partScan fun p hp => (hparts _ p hp).1.visitOwnArguments⟩
    | list xs =>
      have hvisit : Keeps S (scanRest x (.list xs) (foldItems (scanNode x)
          (fun v items _ => scanRest x v items) xs)).visit := by
        refine keeps_get.bind fun _ => (keeps_pure _).ite ?_
        rw [foldItems_eq]
        refine Keeps.forM fun i hi => ?_
        obtain ⟨u, hu, rfl⟩ := List.mem_map.mp hi
        exact (ih _ (sizeOf_lt_of_mem_held (v := .list xs) hu) u rfl).visit
      exact ⟨hvisit, keeps_throw _, hvisit, keeps_throw _, keeps_pure _, keeps_throw _⟩
    | none =>
      have hvisit : Keeps S (scanRest x .none []).visit :=
        keeps_get.bind fun _ => (keeps_pure _).ite (keeps_pure _)
      exact ⟨hvisit, keeps_throw _, hvisit, keeps_throw _, keeps_pure _, keeps_throw _⟩
    | _ =>
      exact ⟨keeps_get.bind fun _ => (keeps_pure _).ite (keeps_throw _), keeps_throw _,
        keeps_get.bind fun _ => (keeps_pure _).ite (keeps_throw _), keeps_throw _, keeps_pure _,
        keeps_throw _⟩

theorem keeps_collect (hcall : ∀ name args form, Keeps S (lift (x.isCall name args form)))
    (hdetect : ∀ form items, Keeps S (lift (x.detect form items)))
    (hadd : ∀ name form, Keeps S (add name form)) (v : Value) : Keeps S (collect x v) :=
  (keeps_scan hcall hdetect hadd v).visit

end Collection

section

variable {R : World → World → Prop} [AdmitsRecords R] {α : Type}

theorem keeps_collection (x : Expander) (v : Value) : Keeps R (x.collect v) := by
  let S : Collection → Collection → Prop := fun c d => R c.world d.world
  have : IsPreorder Collection S :=
    { refl := fun c => refl c.world
      trans := fun _ _ _ h h' => IsTrans.trans _ _ _ h h' }
  have hcollect : Keeps S (Collection.collect x v) := by
    refine Collection.keeps_collect (fun name args form c => ?_) (fun form items c => ?_)
      (fun name form c => ?_) v
    · exact keeps_isCall x name args form c.world
    · exact keeps_detect x form items c.world
    · have hworld : (Collection.add name form c).2.world = c.world := by
        simp only [Collection.add, Act.modify_run]
        split <;> rfl
      change R c.world (Collection.add name form c).2.world
      rw [hworld]
      exact refl c.world
  exact fun w => hcollect ⟨w, []⟩

/-! ## Answers to macros -/

theorem keeps_liftExcept (r : Except Error α) : Keeps R (Quotation.liftExcept r : Expansion α) := by
  cases r with
  | ok a => exact keeps_pure a
  | error e => exact keeps_throw e

theorem keeps_liftFields {parts : Parts (Expansion Value)} (fields : List Field)
    (h : ∀ name p, parts.lookup name = some p → Keeps R p.result) :
    Keeps R (Quotation.liftFields parts fields) := by
  induction fields with
  | nil => exact keeps_pure _
  | cons f fields ih =>
    unfold Quotation.liftFields
    split
    next p hp => exact (h f.name p hp).bind fun _ => ih.bind fun _ => keeps_pure _
    next => exact (ih.bind fun _ => keeps_pure _).ite ih

theorem keeps_lifting {captured : Value → Expansion (Option String)}
    (hc : ∀ v, Keeps R (captured v)) (v : Value) : Keeps R (Quotation.lift captured v) := by
  induction v using heldInduction with
  | h v ih =>
    have hitems (xs : List Value) (hxs : ∀ u ∈ xs, u ∈ v.held) :
        Keeps R (xs.mapM (Quotation.lift captured)) := Keeps.mapM fun u hu => ih u (hxs u hu)
    cases v with
    | node k as =>
      rw [Quotation.lift, fold_node]
      refine Keeps.ite (keeps_liftExcept _) (Keeps.ite ?_ (Keeps.ite ?_ ?_))
      · refine (keeps_liftExcept _).bind fun body =>
          Keeps.ite ((hc body).bind fun found => ?_) ((keeps_pure _).bind fun found => ?_)
        all_goals
          cases found with
          | some name => exact keeps_pure _
          | none => exact (keeps_liftExcept _).bind fun _ => keeps_pure _
      · exact (keeps_liftExcept _).bind fun _ => keeps_throw _
      · refine (keeps_liftFields k.fields fun name p hp => ?_).bind fun _ => keeps_pure _
        rw [lookup_foldAttrs] at hp
        obtain ⟨u, hu, rfl⟩ := Option.map_eq_some_iff.mp hp
        exact ih u (mem_held_of_get? hu)
    | list xs =>
      rw [Quotation.lift_list]
      exact (hitems xs fun _ hu => hu).bind fun _ => keeps_pure _
    | tuple xs =>
      rw [Quotation.lift_tuple]
      exact (hitems xs fun _ hu => hu).bind fun _ => keeps_pure _
    | set xs =>
      rw [Quotation.lift_set]
      exact (hitems xs fun _ hu => hu).bind fun _ => keeps_pure _
    | dict es =>
      rw [Quotation.lift_dict]
      exact (hitems _ fun _ hu => List.mem_append_left _ hu).bind fun _ =>
        (hitems _ fun _ hu => List.mem_append_right _ hu).bind fun _ => keeps_pure _
    | none | bool | int | float | str | bytes | frozen => exact keeps_pure _
    | _ => exact keeps_throw _

theorem Expander.keeps_describe (x : Expander) : Keeps R x.describe := by
  refine keeps_get.bind fun w => (keeps_pure _).ite ?_
  exact (Keeps.mapM fun _ _ => (keeps_lift _).bind fun _ => keeps_pure _).bind fun _ => keeps_pure _

theorem Expander.keeps_traced (v node name : Value) : Keeps R (Expander.traced v node name) := by
  refine (keeps_pure _).ite ?_
  exact (keeps_lift _).bind fun _ => (keeps_label _).bind fun _ => keeps_pure _

theorem Expander.keeps_valueRefill (v : Value) (name : String) (xs : List Value) :
    Keeps R (v.refill name xs : Expansion Value) := by
  cases v with
  | node k as =>
    simp only [refill]
    split
    · exact (keeps_assign as name (.set xs)).bind fun _ => keeps_pure _
    · exact (keeps_refill as name xs).bind fun _ => keeps_pure _
  | _ => exact keeps_pure _

end

section

variable {R : World → World → Prop} [Admits R]

theorem keeps_fresh (base : Value) : Keeps R (Expansion.fresh base) :=
  fun w => Admits.fresh w base

theorem keeps_captureGlobally {b : Binding} (hb : b.isTruthy) (base : Value) :
    Keeps R (Expansion.captureGlobally b base) := by
  refine keeps_get.bind fun w => ?_
  split
  · exact keeps_pure _
  · exact fun w => Admits.capture w base b hb

theorem keeps_capture? (x : Expander) (body : Value) : Keeps R (x.capture? body) := by
  refine (keeps_lift _).bind fun name => (keeps_bound? x name).bind fun b => ?_
  cases b with
  | none => exact keeps_pure _
  | some b =>
    cases hb : b.isTruthy with
    | false => simp only [hb]; exact keeps_pure _
    | true =>
      simp only [hb, Bool.not_true, Bool.false_eq_true, ↓reduceIte]
      exact (keeps_captureGlobally hb name).bind fun _ => keeps_pure _

end

section

variable {P : World → Prop} {R : World → World → Prop} [Allows P R]

theorem Act.Agree.inMode {α : Type} {act act' : Expansion α} (h : Agree P R act act')
    (recursive : Bool) :
    Agree P R (Expansion.inMode recursive act) (Expansion.inMode recursive act') :=
  h.within (fun w => Allows.enter R w recursive) fun w t => Allows.mode P w t recursive

namespace Expander

variable {visit visit' : Visit} {x : Expander}

theorem agree_visitTree (h : ∀ v, Agree P R (visit x v) (visit' x v))
    (suite : Option ListLabel) (v : Value) :
    Agree P R (visitTree visit x suite v) (visitTree visit' x suite v) := by
  refine (agree_of_keeps (keeps_label v)).bind fun _ => (h _).bind fun r => ?_
  simp only
  split
  · exact (agree_of_keeps (keeps_changeNote _)).bind fun _ => agree_pure _
  · exact agree_pure _

theorem agree_visitTo (h : ∀ v, Agree P R (visit x v) (visit' x v))
    (extent : Extent) (suite : Option ListLabel) (v : Value) :
    Agree P R (visitTo visit x extent suite v) (visitTo visit' x extent suite v) := by
  have htree := agree_visitTree h suite v
  cases extent with
  | current => exact htree
  | once => exact Agree.inMode (htree.bind fun _ => agree_of_keeps (keeps_label _)) false
  | recursive => exact htree.inMode true

/-- Two ways to visit agree for an expander, also on behalf of quotes and within sections, and what
else macros ask for is allowed. -/
structure VisitsAgree (P : World → Prop) (R : World → World → Prop) (visit visit' : Visit)
    (x : Expander) : Prop where
  visits : ∀ v, Agree P R (visit x v) (visit' x v)
  unquotes : ∀ suite v, Agree P R (unquote visit x suite v) (unquote visit' x suite v)
  scope : ∀ (s : Scope) (act act' : Expansion Value), Agree P R act act' →
    Agree P R (inScope s act) (inScope s act')
  capture : ∀ body, Keeps R (x.capture? body)
  fresh : ∀ base, Keeps R (Expansion.fresh base)

section

variable (h : VisitsAgree P R visit visit' x)

include h

theorem agree_answer (m : Macro) (r : Request) :
    Agree P R (answer visit x m r) (answer visit' x m r) := by
  cases r with
  | visit extent suite v => exact agree_visitTo h.visits extent suite v
  | unquote suite v => exact h.unquotes suite v
  | latest v => exact agree_get.bind fun _ => agree_pure _
  | edit act => exact agree_of_keeps (keeps_onJournal act)
  | lift v => exact agree_of_keeps (keeps_lifting h.capture v)
  | collect v => exact agree_of_keeps (keeps_collection x v)
  | fresh base => exact agree_of_keeps (h.fresh base)
  | quoteLevel => exact agree_get.bind fun _ => agree_pure _
  | stepLevel => exact agree_get.bind fun _ => agree_pure _
  | count => exact fun w _ => ⟨rfl, AdmitsRecords.records w w.journal _ w.log w.warnings w.printed⟩
  | bindings => exact agree_of_keeps (keeps_describe x)
  | print text =>
    exact fun w _ => ⟨rfl, AdmitsRecords.records w w.journal w.counts w.log w.warnings _⟩
  | note call =>
    exact agree_get.bind fun _ w _ =>
      ⟨rfl, AdmitsRecords.records w w.journal w.counts _ w.warnings w.printed⟩

theorem agree_run (m : Macro) (p : Program) :
    Agree P R (run visit x m p) (run visit' x m p) := by
  induction p with
  | give v => exact agree_pure v
  | fail e => exact agree_throw e
  | ask r next ih => exact (agree_answer h m r).attempt.bind ih
  | within s body next ihbody ih => exact (h.scope s _ _ ihbody).attempt.bind ih

/-! ## Invocations -/

theorem agree_apply (b : Binding) (call : Call) :
    Agree P R (apply visit x b call) (apply visit' x b call) := by
  cases b with
  | transformer m =>
    simp only [apply]
    cases m.transformer with
    | eager f => exact (agree_run h m (f call)).bind fun _ => agree_pure _
    | lazy start => exact (agree_lift _).bind fun _ => agree_pure _
  | _ => exact agree_throw _

theorem agree_takeOutput (location : String) (a : Answered) :
    Agree P R (takeOutput visit x location a) (takeOutput visit' x location a) := by
  cases a with
  | ready v => exact agree_lift _
  | pending m p =>
    refine (agree_run h m p).attempt.bind fun r => ?_
    cases r with
    | ok v => exact agree_lift _
    | error e => exact agree_throw _

end

theorem agree_settle (h : ∀ v, Agree P R (visit x v) (visit' x v))
    (invocation v : Value) :
    Agree P R (settle visit x invocation v) (settle visit' x invocation v) := by
  refine (agree_pure _).ite ((agree_of_keeps (keeps_fixLocations _ _ _)).bind fun located =>
    (agree_of_keeps (keeps_placeContexts located _)).bind fun _ =>
      (agree_of_keeps (keeps_label _)).bind fun fixed => ?_)
  exact agree_get.bind fun _ => (h fixed).ite (agree_pure _)

/-! ## Walks -/

variable {expand expand' : Invocation → Expansion Value} {children children' : Expansion Value}

theorem agree_visitSubscript (he : ∀ i, Agree P R (expand i) (expand' i))
    (hc : Agree P R children children') (v : Value) :
    Agree P R (visitSubscript x expand v children) (visitSubscript x expand' v children') := by
  refine (agree_lift _).bind fun _ => (agree_lift _).bind fun c => ?_
  rcases c with _ | ⟨name, args⟩
  · exact hc
  · refine (agree_of_keeps (keeps_isCall x name args .expr)).bind fun _ => Agree.ite ?_ hc
    exact (agree_lift _).bind fun _ => (agree_lift _).bind fun _ => he _

theorem agree_visitWith (he : ∀ i, Agree P R (expand i) (expand' i))
    (hc : Agree P R children children') (v : Value) :
    Agree P R (visitWith x expand v children) (visitWith x expand' v children') := by
  refine (agree_lift _).bind fun items =>
    (agree_of_keeps (keeps_detect x .block items)).bind fun detected => ?_
  split
  · exact hc
  · refine (agree_lift _).bind fun _ => (agree_lift _).bind fun _ => (agree_lift _).bind fun _ =>
      (agree_of_keeps (keeps_valueRefill _ _ _)).bind fun _ => (agree_lift _).bind fun _ => ?_
    refine Agree.ite ((agree_lift _).bind fun _ => (agree_pure _).bind fun _ => ?_)
      ((agree_pure _).bind fun _ => ?_)
    all_goals exact (he _).bind fun _ => agree_of_keeps (keeps_traced _ _ _)

theorem agree_visitDecorated (he : ∀ i, Agree P R (expand i) (expand' i))
    (hc : Agree P R children children') (v : Value) :
    Agree P R (visitDecorated x expand v children) (visitDecorated x expand' v children') := by
  refine (agree_lift _).bind fun items =>
    (agree_of_keeps (keeps_detect x .decorator items)).bind fun detected => ?_
  split
  · exact hc
  · exact (agree_lift _).bind fun _ => (agree_lift _).bind fun _ =>
      (agree_of_keeps (keeps_valueRefill _ _ _)).bind fun _ => (he _).bind fun _ =>
        agree_of_keeps (keeps_traced _ _ _)

theorem agree_visitName (h : ∀ v, Agree P R (visit x v) (visit' x v))
    (he : ∀ i, Agree P R (expand i) (expand' i)) (v : Value) :
    Agree P R (visitName x expand visit v) (visitName x expand' visit' v) := by
  refine (agree_lift _).bind fun name =>
    (agree_of_keeps (keeps_isCall x name .none .name)).bind fun _ => Agree.ite ?_ (agree_pure _)
  refine ((he _).inMode false).bind fun r => (agree_pure _).ite ?_
  refine Agree.ite ((agree_lift _).bind fun _ => (agree_pure _).bind fun _ => ?_)
    ((agree_pure _).bind fun _ => ?_)
  all_goals
    refine Agree.ite (agree_of_keeps (keeps_label _)) (agree_get.bind fun _ => ?_)
    exact (h r).ite (agree_pure _)

theorem agree_visitNode (h : ∀ v, Agree P R (visit x v) (visit' x v))
    (he : ∀ i, Agree P R (expand i) (expand' i)) {parts parts' : Parts (Expansion Value)}
    (hc : Agree P R (visitChildren k as parts) (visitChildren k as parts')) :
    Agree P R (visitNode x expand visit k as parts)
      (visitNode x expand' visit' k as parts') := by
  refine agree_get.bind fun w => (agree_pure _).ite ?_
  simp only
  split
  · exact agree_visitSubscript he hc _
  · exact agree_visitWith he hc _
  · exact agree_visitDecorated he hc _
  · exact agree_visitDecorated he hc _
  · exact agree_visitName h he _
  · exact (agree_lift _).bind fun _ => hc
  · exact hc

theorem agree_walk (h : ∀ v, Agree P R (visit x v) (visit' x v))
    (he : ∀ i, Agree P R (expand i) (expand' i)) (v : Value) :
    Agree P R (x.walk expand visit v) (x.walk expand' visit' v) := by
  induction v using walkInduction with
  | node k as ih =>
    rw [walk, walk, fold_node, fold_node]
    exact agree_visitNode h he (agree_rebuild fun _ u hu => ih u hu)
  | rest v hn ih =>
    cases v with
    | node => cases hn
    | list xs =>
      rw [walk, walk, fold_list, fold_list, foldItems_eq, foldItems_eq]
      refine agree_get.bind fun w => (agree_pure _).ite ?_
      rw [List.mapM_map, List.mapM_map]
      exact Agree.bind (Agree.mapM ih) fun _ => agree_pure _
    | none => exact agree_get.bind fun w => (agree_pure _).ite (agree_pure _)
    | _ => exact agree_get.bind fun w => (agree_pure _).ite (agree_throw _)

end Expander

end

/-! ## Whole visits -/

section

variable {R : World → World → Prop} [Admits R]

theorem keeps_inMode {α : Type} (recursive : Bool) {act : Expansion α} (h : Keeps R act) :
    Keeps R (Expansion.inMode recursive act) :=
  ((agree_of_keeps h).inMode recursive).keeps

namespace Expander

variable {visit : Visit} (h : ∀ x v, Keeps R (visit x v))

include h

private theorem visitsAgree_of_keeps (x : Expander) :
    VisitsAgree (fun _ => True) R visit visit x where
  visits v := agree_of_keeps (h x v)
  unquotes suite v := agree_get.bind fun _ =>
    (agree_visitTree (fun u => agree_of_keeps (h _ u)) suite v).inMode true
  scope s act act' hact := by
    cases s with
    | quote delta =>
      exact agree_get.bind fun _ => (agree_lift _).bind fun _ =>
        hact.within (fun _ h => h) fun w t => Admits.quoteLevel w t _
    | step delta =>
      exact agree_get.bind fun _ => (agree_lift _).bind fun _ =>
        hact.within (fun _ h => h) fun w t => Admits.stepLevel w t _
  capture := keeps_capture? x
  fresh := keeps_fresh

theorem keeps_visitTo (x : Expander) (extent : Extent) (suite : Option ListLabel) (v : Value) :
    Keeps R (visitTo visit x extent suite v) :=
  (agree_visitTo (fun u => agree_of_keeps (h x u)) extent suite v).keeps

theorem keeps_apply (x : Expander) (b : Binding) (call : Call) : Keeps R (apply visit x b call) :=
  (agree_apply (visitsAgree_of_keeps h x) b call).keeps

theorem keeps_takeOutput (x : Expander) (location : String) (a : Answered) :
    Keeps R (takeOutput visit x location a) :=
  (agree_takeOutput (visitsAgree_of_keeps h x) location a).keeps

theorem keeps_expand (x : Expander) (i : Invocation) : Keeps R (x.expand visit i) := by
  refine (keeps_bound? x i.name).bind fun b => ?_
  cases b with
  | none => exact keeps_throw _
  | some b =>
    have hattempt : Keeps R (Act.attempt (apply visit x b i.call)) := keeps_apply h x b i.call
    refine hattempt.bind fun r => ?_
    cases r with
    | error e => exact keeps_throw _
    | ok a =>
      exact (keeps_takeOutput h x _ a).bind fun v =>
        (agree_settle (fun u => agree_of_keeps (h x u)) _ v).keeps

omit h in
theorem keeps_visitAt (depth : Nat) (x : Expander) (v : Value) : Keeps R (visitAt depth x v) := by
  induction depth generalizing x v with
  | zero => exact keeps_throw _
  | succ depth ih =>
    exact (agree_walk (fun u => agree_of_keeps (ih x u))
      (fun i => agree_of_keeps (keeps_expand ih x i)) v).keeps

end Expander

end

end TreeMacros
