import TreeMacros.Proofs.Lifting
import TreeMacros.Proofs.Lowering

/-!
# Lifting and lowering

Code that was made by lifting a value can be run, and gives the value back. The first part says for
which values this is so, and in what form they come back. The second part says which values cannot
be lifted, and what error ends the attempt.
-/

namespace TreeMacros

open Value hiding none set
open Attrs (get?)

variable {k : Kind} {as : Attrs} {xs ys : List Value} {v : Value}

namespace Value

/-! ## Values that come back -/

/-- The values can be the keys of a dictionary or the elements of a set. -/
def areKeys (vs : List Value) : Bool :=
  vs.all isHashable && decide (vs.Pairwise fun a b => a.same b = false)

/-- The value is built of constants, lists, tuples, sets, dictionaries and nodes. The nodes are
neither markers nor older literals, and their locations are made of numbers. -/
def isQuotable : Value → Bool :=
  fold
    (fun k as parts =>
      !k.isMarker && (!k.isConstant || k == .constant) && (!k.located || hasPlainLocation as) &&
        k.fields.all fun f => ((parts.lookup f.name).map (·.result)).getD true)
    fun v items entries =>
      match v with
      | none | bool _ | int _ | float _ | str _ | bytes _ | frozen _ => true
      | list _ | tuple _ => items.all (·.result)
      | set xs => areKeys xs && items.all (·.result)
      | dict es => areKeys (es.map (·.1)) && items.all (·.result) && entries.all (·.result)
      | _ => false

/-- The value with the unset optional fields of its nodes set to be empty. Of the other attributes
of nodes, those for the location are kept. -/
def completed : Value → Value :=
  fold
    (fun k as parts => node k (k.fields.filterMap (fun f =>
      match parts.lookup f.name with
      | some p => some (f.name, p.result)
      | .none => if f.optional then some (f.name, none) else .none) ++ location k as))
    fun v items entries =>
      match v with
      | list _ => list (items.map (·.result))
      | tuple _ => tuple (items.map (·.result))
      | set _ => set (items.map (·.result))
      | dict _ => dict ((items.map (·.result)).zip (entries.map (·.result)))
      | v => v

theorem completed_node (k : Kind) (as : Attrs) : (node k as).completed =
    node k ((node k as).fields.map (fun f => (f.1, f.2.completed)) ++ location k as) := by
  rw [completed, fold_node, fields, List.map_filterMap]
  congr 3
  funext f
  rw [lookup_foldAttrs, field?]
  cases get? as f.name with
  | some v => rfl
  | none => cases f.optional <;> rfl

theorem completed_list (xs : List Value) : (list xs).completed = list (xs.map completed) := by
  rw [completed, fold_list, foldItems_eq, List.map_map]
  rfl

theorem completed_tuple (xs : List Value) : (tuple xs).completed = tuple (xs.map completed) := by
  rw [completed, fold_tuple, foldItems_eq, List.map_map]
  rfl

theorem completed_set (xs : List Value) : (set xs).completed = set (xs.map completed) := by
  rw [completed, fold_set, foldItems_eq, List.map_map]
  rfl

theorem completed_dict (es : List (Value × Value)) : (dict es).completed =
    dict (es.map fun e => (e.1.completed, e.2.completed)) := by
  rw [completed, fold_dict, foldKeys_eq, foldValues_eq, List.map_map, List.map_map, List.zip_map']
  rfl

theorem forall_mem_fields {p : Value → Prop} (hnone : p none) :
    (∀ f ∈ (node k as).fields, p f.2) ↔
      ∀ f ∈ k.fields, ∀ v, get? as f.name = some v → p v := by
  simp only [fields, List.mem_filterMap, field?]
  constructor
  · intro h f hf v hv
    exact h (f.name, v) ⟨f, hf, by rw [hv]⟩
  · rintro h g ⟨f, hf, hg⟩
    cases hv : get? as f.name with
    | some v =>
      rw [hv] at hg
      cases hg
      exact h f hf v hv
    | none =>
      rw [hv] at hg
      cases ho : f.optional with
      | true =>
        rw [ho] at hg
        cases hg
        exact hnone
      | false =>
        rw [ho] at hg
        cases hg

/-- As `isQuotable`, but with another condition on the attributes of nodes that have a location. -/
def isBuilt (sited : Attrs → Bool) : Value → Bool :=
  fold
    (fun k as parts =>
      !k.isMarker && (!k.isConstant || k == .constant) && (!k.located || sited as) &&
        k.fields.all fun f => ((parts.lookup f.name).map (·.result)).getD true)
    fun v items entries =>
      match v with
      | none | bool _ | int _ | float _ | str _ | bytes _ | frozen _ => true
      | list _ | tuple _ => items.all (·.result)
      | set xs => areKeys xs && items.all (·.result)
      | dict es => areKeys (es.map (·.1)) && items.all (·.result) && entries.all (·.result)
      | _ => false

section

variable {sited : Attrs → Bool}

theorem isBuilt_node : (node k as).isBuilt sited ↔
    k.isMarker = false ∧ (k.isConstant → k = .constant) ∧
      (k.located → sited as) ∧
        ∀ f ∈ (node k as).fields, f.2.isBuilt sited := by
  have hfields : (k.fields.all fun f => ((get? as f.name).map (isBuilt sited)).getD true) =
      true ↔ ∀ f ∈ (node k as).fields, f.2.isBuilt sited := by
    rw [forall_mem_fields (p := fun v => v.isBuilt sited) rfl, List.all_eq_true]
    refine forall₂_congr fun f _ => ?_
    cases get? as f.name <;> simp
  rw [← hfields, isBuilt, fold_node]
  simp only [Bool.and_eq_true, Bool.not_eq_true', Bool.or_eq_true, beq_iff_eq, lookup_foldAttrs,
    Option.map_map, and_assoc, Bool.eq_false_iff, ne_eq, imp_iff_not_or]
  rfl

theorem isBuilt_list : (list xs).isBuilt sited ↔ ∀ x ∈ xs, x.isBuilt sited := by
  rw [isBuilt, fold_list, foldItems_eq]
  simp only [List.all_map, List.all_eq_true]
  rfl

theorem isBuilt_tuple : (tuple xs).isBuilt sited ↔ ∀ x ∈ xs, x.isBuilt sited := by
  rw [isBuilt, fold_tuple, foldItems_eq]
  simp only [List.all_map, List.all_eq_true]
  rfl

theorem isBuilt_set : (set xs).isBuilt sited ↔
    areKeys xs = true ∧ ∀ x ∈ xs, x.isBuilt sited := by
  rw [isBuilt, fold_set, foldItems_eq]
  simp only [Bool.and_eq_true, List.all_map, List.all_eq_true]
  rfl

theorem isBuilt_dict {es : List (Value × Value)} : (dict es).isBuilt sited ↔
    areKeys (es.map (·.1)) = true ∧ (∀ e ∈ es, e.1.isBuilt sited) ∧
      ∀ e ∈ es, e.2.isBuilt sited := by
  rw [isBuilt, fold_dict, foldKeys_eq, foldValues_eq]
  simp only [Bool.and_eq_true, List.all_map, List.all_eq_true, and_assoc]
  rfl

end

theorem isQuotable_node : (node k as).isQuotable ↔
    k.isMarker = false ∧ (k.isConstant → k = .constant) ∧
      (k.located → hasPlainLocation as) ∧
        ∀ f ∈ (node k as).fields, f.2.isQuotable :=
  isBuilt_node

/-- A value that comes back from its code, up to completion. -/
def isRestorable (v : Value) : Bool := v.isBuilt hasCopiedLocation

/-! A change of nodes does not change which keys are the same, since nodes never are. -/

/-- Whether a value is neither a node nor a container that is built element by element. -/
def isLeaf : Value → Bool
  | node .. | list _ | tuple _ | set _ | dict _ => false
  | _ => true

/-- Nodes become nodes of the same kind, containers of the same type hold what has become of their
elements, and all else stays. -/
structure Reshapes (g : Value → Value) : Prop where
  node : ∀ k as, ∃ bs, g (node k as) = node k bs
  list : ∀ xs, g (list xs) = list (xs.map g)
  tuple : ∀ xs, g (tuple xs) = tuple (xs.map g)
  set : ∀ xs, g (set xs) = set (xs.map g)
  dict : ∀ es, g (dict es) = dict (es.map fun e => (g e.1, g e.2))
  leaf : ∀ v, v.isLeaf = true → g v = v

theorem reshapes_completed : Reshapes completed where
  node k as := ⟨_, completed_node k as⟩
  list := completed_list
  tuple := completed_tuple
  set := completed_set
  dict := completed_dict
  leaf v h := by
    cases v with
    | node | list | tuple | set | dict => cases h
    | _ => rfl

theorem isHashable_tuple : (tuple xs).isHashable ↔ ∀ x ∈ xs, x.isHashable := by
  rw [isHashable]
  induction xs with
  | nil => simp [isHashable.hashables]
  | cons x xs ih => simp [isHashable.hashables, ih]

private theorem same_node_left (k : Kind) (as : Attrs) (b : Value) :
    (node k as).same b = false := by
  cases b <;> simp [same, sameNumber, decimal?]

private theorem same_node_right (a : Value) (k : Kind) (as : Attrs) :
    a.same (node k as) = false := by
  cases a <;> simp [same, sameNumber, decimal?]

private theorem same_tuple_left (xs : List Value) {b : Value} (hb : ∀ ys, b ≠ tuple ys) :
    (tuple xs).same b = false := by
  cases b with
  | tuple ys => exact (hb ys rfl).elim
  | _ => simp [same, sameNumber, decimal?]

private theorem same_tuple_right {a : Value} (ha : ∀ xs, a ≠ tuple xs) (ys : List Value) :
    a.same (tuple ys) = false := by
  cases a with
  | tuple xs => exact (ha xs rfl).elim
  | _ => simp [same, sameNumber, decimal?]

section

variable {g : Value → Value}

private theorem sameAll_map (h : ∀ x ∈ xs, ∀ y ∈ ys, (g x).same (g y) = x.same y) :
    sameAll (xs.map g) (ys.map g) = sameAll xs ys := by
  induction xs generalizing ys with
  | nil => cases ys <;> simp [sameAll]
  | cons x xs ih =>
    cases ys with
    | nil => simp [sameAll]
    | cons y ys =>
      rw [List.map_cons, List.map_cons, sameAll, sameAll, h x (by simp) y (by simp),
        ih fun u hu w hw => h u (by simp [hu]) w (by simp [hw])]

theorem Reshapes.same (hg : Reshapes g) {a b : Value} (ha : a.isHashable)
    (hb : b.isHashable) : (g a).same (g b) = a.same b := by
  induction a using heldInduction generalizing b with
  | h a ih =>
    cases a with
    | node k as =>
      obtain ⟨bs, hbs⟩ := hg.node k as
      rw [hbs, same_node_left, same_node_left]
    | tuple xs =>
      cases b with
      | node k as =>
        obtain ⟨bs, hbs⟩ := hg.node k as
        rw [hbs, same_node_right, same_node_right]
      | tuple ys =>
        rw [hg.tuple, hg.tuple, Value.same, Value.same]
        exact sameAll_map fun x hx y hy =>
          ih x hx (isHashable_tuple.mp ha x hx) (isHashable_tuple.mp hb y hy)
      | list | set | dict => cases hb
      | _ =>
        rw [hg.tuple, hg.leaf _ rfl, same_tuple_left _ (by rintro ys ⟨⟩),
          same_tuple_left _ (by rintro ys ⟨⟩)]
    | list | set | dict => cases ha
    | _ =>
      rw [hg.leaf _ rfl]
      cases b with
      | node k as =>
        obtain ⟨bs, hbs⟩ := hg.node k as
        rw [hbs, same_node_right, same_node_right]
      | tuple ys =>
        rw [hg.tuple, same_tuple_right (by rintro ys ⟨⟩), same_tuple_right (by rintro ys ⟨⟩)]
      | list | set | dict => cases hb
      | _ => rw [hg.leaf _ rfl]

theorem Reshapes.isHashable (hg : Reshapes g) (v : Value) : (g v).isHashable = v.isHashable := by
  induction v using heldInduction with
  | h v ih =>
    cases v with
    | node k as =>
      obtain ⟨bs, hbs⟩ := hg.node k as
      rw [hbs]
      rfl
    | tuple xs =>
      rw [hg.tuple, Bool.eq_iff_iff, isHashable_tuple, isHashable_tuple, List.forall_mem_map]
      exact forall₂_congr fun x hx => by rw [ih x hx]
    | list xs => rw [hg.list]; rfl
    | set xs => rw [hg.set]; rfl
    | dict es => rw [hg.dict]; rfl
    | _ => rw [hg.leaf _ rfl]

theorem asKey_of_isHashable (h : v.isHashable) : v.asKey = .ok v := by
  rw [asKey, if_pos h]

theorem areKeys_iff {vs : List Value} : areKeys vs ↔
    (∀ v ∈ vs, v.isHashable) ∧ vs.Pairwise fun a b => a.same b = false := by
  rw [areKeys, Bool.and_eq_true, List.all_eq_true, decide_eq_true_eq]

theorem Reshapes.areKeys (hg : Reshapes g) (vs : List Value) :
    areKeys (vs.map g) = areKeys vs := by
  rw [Bool.eq_iff_iff, areKeys_iff, areKeys_iff, List.forall_mem_map, List.pairwise_map]
  simp only [hg.isHashable]
  refine and_congr_right fun hhash => ?_
  exact List.Pairwise.iff_of_mem fun ha hb => by rw [hg.same (hhash _ ha) (hhash _ hb)]

end

/-! The fields that a walk meets are some of those that the grammar has. -/

theorem fields_sublist (k : Kind) (as : Attrs) :
    ((node k as).fields.map (·.1)).Sublist k.fieldNames := by
  rw [fields, Kind.fieldNames]
  induction k.fields with
  | nil => exact .slnil
  | cons f fs ih =>
    rw [List.filterMap_cons]
    cases h : field? as f with
    | none => exact ih.cons _
    | some p =>
      have hname : p.1 = f.name := by
        unfold field? at h
        split at h
        next => rw [← Option.some.inj h]
        next =>
          split at h
          · rw [← Option.some.inj h]
          · cases h
      rw [List.map_cons, List.map_cons, hname]
      exact ih.cons_cons _

theorem mem_held_of_mem_fields {f : String × Value} (h : f ∈ (node k as).fields) :
    f.2 ∈ (node k as).held ∨ f.2 = none := by
  refine (forall_mem_fields (p := fun v => v ∈ (node k as).held ∨ v = none) (.inr rfl)).mpr ?_ f h
  intro f _ v hv
  exact .inl (mem_held_of_get? hv)

/-- The constants that there is code for. -/
def isAtom : Value → Bool
  | none | bool _ | int _ | float _ | str _ | bytes _ | frozen _ => true
  | _ => false

theorem builtInduction {sited : Attrs → Bool} {motive : Value → Prop}
    (atom : ∀ v, v.isAtom → motive v)
    (node : ∀ k as, k.isMarker = false → (k.isConstant → k = .constant) →
      (k.located → sited as) → (∀ f ∈ (node k as).fields, motive f.2) →
        motive (.node k as))
    (list : ∀ xs, (∀ x ∈ xs, motive x) → motive (.list xs))
    (tuple : ∀ xs, (∀ x ∈ xs, motive x) → motive (.tuple xs))
    (set : ∀ xs, areKeys xs → (∀ x ∈ xs, motive x) → motive (.set xs))
    (dict : ∀ es : List (Value × Value), areKeys (es.map (·.1)) →
      (∀ e ∈ es, motive e.1) → (∀ e ∈ es, motive e.2) → motive (.dict es))
    (h : v.isBuilt sited) : motive v := by
  induction v using heldInduction with
  | h v ih =>
    cases v with
    | node k as =>
      obtain ⟨hk, hold, has, hfields⟩ := isBuilt_node.mp h
      refine node k as hk hold has fun f hf => ?_
      rcases mem_held_of_mem_fields hf with hheld | hnone
      · exact ih f.2 hheld (hfields f hf)
      · rw [hnone]
        exact atom _ rfl
    | list xs => exact list xs fun x hx => ih x hx (isBuilt_list.mp h x hx)
    | tuple xs => exact tuple xs fun x hx => ih x hx (isBuilt_tuple.mp h x hx)
    | set xs =>
      obtain ⟨hkeys, hxs⟩ := isBuilt_set.mp h
      exact set xs hkeys fun x hx => ih x hx (hxs x hx)
    | dict es =>
      obtain ⟨hkeys, hks, hvs⟩ := isBuilt_dict.mp h
      exact dict es hkeys
        (fun e he => ih e.1 (List.mem_append_left _ (List.mem_map_of_mem he)) (hks e he))
        (fun e he => ih e.2 (List.mem_append_right _ (List.mem_map_of_mem he)) (hvs e he))
    | none | bool | int | float | str | bytes | frozen => exact atom _ rfl
    | _ => cases h

theorem isBuilt_mono {sited sited' : Attrs → Bool} (h : ∀ as, sited as → sited' as)
    (hv : v.isBuilt sited) : v.isBuilt sited' := by
  refine builtInduction (motive := fun v => v.isBuilt sited') (fun v ha => ?_)
    (fun k as hk hold has hfields => ?_) (fun _ => isBuilt_list.mpr) (fun _ => isBuilt_tuple.mpr)
    (fun _ hkeys hxs => isBuilt_set.mpr ⟨hkeys, hxs⟩)
    (fun _ hkeys hks hvs => isBuilt_dict.mpr ⟨hkeys, hks, hvs⟩) hv
  · cases v <;> first | rfl | cases ha
  · exact isBuilt_node.mpr ⟨hk, hold, fun hl => h as (has hl), hfields⟩

theorem isRestorable_of_isQuotable (h : v.isQuotable) : v.isRestorable :=
  isBuilt_mono (fun _ => hasCopiedLocation_of_hasPlainLocation) h

end Value

namespace Quotation

private theorem exists_mapM {α β γ : Type} {f : α → Except Error β} {g : β → Except Error γ}
    {h : α → γ} {xs : List α} (hx : ∀ x ∈ xs, ∃ c, f x = .ok c ∧ g c = .ok (h x)) :
    ∃ cs, xs.mapM f = .ok cs ∧ cs.mapM g = .ok (xs.map h) := by
  induction xs with
  | nil => exact ⟨[], rfl, rfl⟩
  | cons x xs ih =>
    obtain ⟨c, hc, hgc⟩ := hx x (by simp)
    obtain ⟨cs, hcs, hgcs⟩ := ih fun y hy => hx y (by simp [hy])
    refine ⟨c :: cs, ?_, ?_⟩
    · rw [List.mapM_cons, hc, hcs]
      rfl
    · rw [List.mapM_cons, hgc, hgcs]
      rfl

theorem mapM_zip {f : Value → Except Error Value} {xs' ys' : List Value} (h : xs.mapM f = .ok ys)
    (h' : xs'.mapM f = .ok ys') (hys : ∀ y ∈ ys, y.isHashable) :
    (xs.zip xs').mapM (fun e => do
      let key ← f e.1
      let value ← f e.2
      return (← key.asKey, value)) = .ok (ys.zip ys') := by
  induction xs generalizing xs' ys ys' with
  | nil =>
    cases h
    rfl
  | cons x xs ih =>
    obtain ⟨y, zs, hy, hzs, rfl⟩ := exists_of_mapM_cons h
    cases xs' with
    | nil =>
      cases h'
      rfl
    | cons x' xs' =>
      obtain ⟨y', zs', hy', hzs', rfl⟩ := exists_of_mapM_cons h'
      rw [List.zip_cons_cons, List.mapM_cons, hy, hy', ih hzs hzs' fun z hz => hys z (by simp [hz])]
      change ((y.asKey >>= _) >>= _) = _
      rw [asKey_of_isHashable (hys y (by simp))]
      rfl

/-- The value can be lifted, and its code gives the completed value. -/
def Returns (again : Value → Except Error Value) (v : Value) : Prop :=
  ∃ code, liftPlain v = .ok code ∧ lowerWith again code = .ok v.completed

section

variable {again : Value → Except Error Value} {xs : List Value}

theorem returns_list (h : ∀ x ∈ xs, Returns again x) : Returns again (.list xs) := by
  obtain ⟨codes, hcodes, hvs⟩ := exists_mapM h
  refine ⟨.node .list [("elts", .list codes)], ?_, ?_⟩
  · rw [liftPlain, lift_list]
    change (xs.mapM liftPlain >>= _) = _
    rw [hcodes]
    rfl
  · rw [lowerWith_listDisplay again rfl, hvs, completed_list]
    rfl

theorem returns_tuple (h : ∀ x ∈ xs, Returns again x) : Returns again (.tuple xs) := by
  obtain ⟨codes, hcodes, hvs⟩ := exists_mapM h
  refine ⟨.node .tuple [("elts", .list codes)], ?_, ?_⟩
  · rw [liftPlain, lift_tuple]
    change (xs.mapM liftPlain >>= _) = _
    rw [hcodes]
    rfl
  · rw [lowerWith_tupleDisplay again rfl, hvs, completed_tuple]
    rfl

theorem returns_set (hkeys : areKeys xs) (h : ∀ x ∈ xs, Returns again x) :
    Returns again (.set xs) := by
  rw [← reshapes_completed.areKeys] at hkeys
  obtain ⟨hhash, hdistinct⟩ := areKeys_iff.mp hkeys
  obtain ⟨codes, hcodes, hvs⟩ := exists_mapM h
  refine ⟨.node .set [("elts", .list codes)], ?_, ?_⟩
  · rw [liftPlain, lift_set]
    change (xs.mapM liftPlain >>= _) = _
    rw [hcodes]
    rfl
  · have hasKeys := except_mapM_bind (g := asKey) (h := id) hvs fun v hv =>
      asKey_of_isHashable (hhash v hv)
    rw [lowerWith_setDisplay again rfl, hasKeys, List.map_id, completed_set]
    exact congrArg (fun vs => Except.ok (Value.set vs)) (distinct_of_pairwise hdistinct)

theorem returns_dict {es : List (Value × Value)} (hkeys : areKeys (es.map (·.1)))
    (h : ∀ e ∈ es, Returns again e.1) (h' : ∀ e ∈ es, Returns again e.2) :
    Returns again (.dict es) := by
  rw [← reshapes_completed.areKeys] at hkeys
  obtain ⟨hhash, hdistinct⟩ := areKeys_iff.mp hkeys
  obtain ⟨keys, hkeyCodes, hks⟩ := exists_mapM (List.forall_mem_map.mpr h)
  obtain ⟨values, hvalueCodes, hvs⟩ := exists_mapM (List.forall_mem_map.mpr h')
  refine ⟨.node .dict [("keys", .list keys), ("values", .list values)], ?_, ?_⟩
  · rw [liftPlain, lift_dict]
    change ((es.map (·.1)).mapM liftPlain >>= fun _ => (es.map (·.2)).mapM liftPlain >>= _) = _
    rw [hkeyCodes, hvalueCodes]
    rfl
  · have hentries := mapM_zip hks hvs hhash
    rw [List.map_map, List.map_map, List.zip_map'] at hentries
    have hdict : Dictionary.Distinct (es.map fun e => (e.1.completed, e.2.completed)) := by
      rw [List.map_map, List.pairwise_map] at hdistinct
      exact List.pairwise_map.mpr hdistinct
    rw [lowerWith_dictDisplay again rfl rfl, hentries, completed_dict]
    exact congrArg (fun es => Except.ok (dict es)) (Dictionary.insertAll_of_distinct hdict)

theorem returns_node (hk : k.isMarker = false) (hold : k.isConstant → k = .constant)
    (has : k.located → hasCopiedLocation as)
    (h : ∀ f ∈ (node k as).fields, Returns again f.2) : Returns again (.node k as) := by
  have heach : ∀ f ∈ (node k as).fields, ∃ code : String × Value,
      (do return (f.1, ← liftPlain f.2)) = Except.ok code ∧
        (do return (code.1, ← lowerWith again code.2)) = Except.ok (f.1, f.2.completed) := by
    intro f hf
    obtain ⟨code, hlift, hlower⟩ := h f hf
    exact ⟨(f.1, code), by rw [hlift]; rfl, by rw [hlower]; rfl⟩
  obtain ⟨codes, hcodes, hps⟩ := exists_mapM heach
  have hsub := fields_sublist k as
  refine ⟨buildCall (.node k as) codes, ?_, ?_⟩
  · rw [liftPlain, lift_node _ hk]
    change (List.mapM (fun f : String × Value => do return (f.1, ← liftPlain f.2)) _ >>= _) = _
    rw [hcodes]
    rfl
  · rw [completed_node]
    refine lowerWith_buildCall again hk hold has (fun p hp => ?_) ?_ hps
    · obtain ⟨f, hf, rfl⟩ := List.mem_map.mp hp
      exact hsub.subset (List.mem_map_of_mem (f := (·.1)) hf)
    · rw [List.map_map]
      exact hsub.nodup k.fieldNames_nodup

end

theorem returns_of_isRestorable (again : Value → Except Error Value) (h : v.isRestorable) :
    Returns again v := by
  refine builtInduction (fun v ha => ?_) (fun k as => returns_node) (fun xs => returns_list)
    (fun xs => returns_tuple) (fun xs => returns_set) (fun es => returns_dict) h
  cases v <;> first | exact ⟨_, rfl, rfl⟩ | cases ha

theorem returns_of_isQuotable (again : Value → Except Error Value) (h : v.isQuotable) :
    Returns again v :=
  returns_of_isRestorable again (isRestorable_of_isQuotable h)

end Quotation

/-! ## Values that cannot be lifted -/

namespace Value

/-- The parts of a value for which lifting has no code, in the order in which it comes to them:
markers, and constants of other types. -/
def offenders : Value → List Value :=
  fold
    (fun k as parts =>
      if k.isMarker then [node k as]
      else k.fields.flatMap fun f => ((parts.lookup f.name).map (·.result)).getD [])
    fun v items entries =>
      match v with
      | none | bool _ | int _ | float _ | str _ | bytes _ | frozen _ => []
      | list _ | tuple _ | set _ => items.flatMap (·.result)
      | dict _ => items.flatMap (·.result) ++ entries.flatMap (·.result)
      | v => [v]

theorem offenders_marker (hk : k.isMarker) (as : Attrs) :
    (node k as).offenders = [node k as] := by
  rw [offenders, fold_node, if_pos hk]

theorem offenders_node (hk : k.isMarker = false) (as : Attrs) :
    (node k as).offenders = (node k as).fields.flatMap fun f => f.2.offenders := by
  rw [offenders, fold_node, if_neg (by simp [hk]), fields]
  induction k.fields with
  | nil => rfl
  | cons f fs ih =>
    rw [List.flatMap_cons, ih, lookup_foldAttrs, List.filterMap_cons, field?]
    cases get? as f.name with
    | some v => rfl
    | none => cases f.optional <;> rfl

theorem offenders_list (xs : List Value) : (list xs).offenders = xs.flatMap offenders := by
  rw [offenders, fold_list, foldItems_eq]
  exact List.flatMap_map _ _ _

theorem offenders_tuple (xs : List Value) : (tuple xs).offenders = xs.flatMap offenders := by
  rw [offenders, fold_tuple, foldItems_eq]
  exact List.flatMap_map _ _ _

theorem offenders_set (xs : List Value) : (set xs).offenders = xs.flatMap offenders := by
  rw [offenders, fold_set, foldItems_eq]
  exact List.flatMap_map _ _ _

theorem offenders_dict (es : List (Value × Value)) : (dict es).offenders =
    (es.map (·.1)).flatMap offenders ++ (es.map (·.2)).flatMap offenders := by
  rw [offenders, fold_dict, foldKeys_eq, foldValues_eq]
  simp only [List.flatMap_map]

end Value

namespace Quotation

/-- The error for a part that cannot be lifted. It shows the source of a marker, and so the error
is another one for a marker that has none. -/
def refusal (u : Value) : Error :=
  if u.isNode then
    match u.source false with
    | .ok text => .report (.liftMarker text) none
    | .error e => e
  else .report (.liftValue u.repr) none

/-- The first of the parts, if there is any, is refused. -/
def Refuses {α : Type} (us : List Value) (r : Except Error α) : Prop :=
  match us with
  | [] => ∃ a, r = .ok a
  | u :: _ => r = .error (refusal u)

section

variable {α β : Type} {us vs : List Value}

theorem refuses_ok (a : α) : Refuses [] (Except.ok a) := ⟨a, rfl⟩

theorem Refuses.bind {r : Except Error α} {f : α → Except Error β} (h : Refuses us r)
    (hf : ∀ a, Refuses vs (f a)) : Refuses (us ++ vs) (r >>= f) := by
  cases us with
  | nil =>
    obtain ⟨a, rfl⟩ := h
    exact hf a
  | cons u us =>
    obtain rfl : r = .error (refusal u) := h
    rfl

theorem Refuses.bind_ok {r : Except Error α} {f : α → β} (h : Refuses us r) :
    Refuses us (r >>= fun a => .ok (f a)) := by
  simpa using h.bind fun a => refuses_ok (f a)

theorem Refuses.mapM {f : α → Except Error β} {g : α → List Value} {xs : List α}
    (h : ∀ x ∈ xs, Refuses (g x) (f x)) : Refuses (xs.flatMap g) (xs.mapM f) := by
  induction xs with
  | nil => exact refuses_ok []
  | cons x xs ih =>
    rw [List.flatMap_cons, List.mapM_cons]
    exact (h x (by simp)).bind fun y => (ih fun z hz => h z (by simp [hz])).bind_ok

end

/-- Lifting ends at the first part that it has no code for, and succeeds if there is none. -/
theorem refuses_liftPlain
    (h : ∀ u ∈ v.offenders, u.isKind .literal = false ∧ u.isKind .captureLater = false) :
    Refuses v.offenders (liftPlain v) := by
  induction v using heldInduction with
  | h v ih =>
    have hitems (xs : List Value) (hheld : ∀ x ∈ xs, x ∈ v.held)
        (hxs : ∀ u ∈ xs.flatMap offenders, u ∈ v.offenders) :
        Refuses (xs.flatMap offenders) (xs.mapM liftPlain) :=
      Refuses.mapM fun x hx => ih x (hheld x hx) fun u hu =>
        h u (hxs u (List.mem_flatMap.mpr ⟨x, hx, hu⟩))
    cases v with
    | node k as =>
      cases hk : k.isMarker with
      | true =>
        rw [offenders_marker hk] at h ⊢
        obtain ⟨hliteral, hcapture⟩ := h _ (List.mem_singleton_self _)
        change liftPlain (.node k as) = .error (refusal (.node k as))
        rw [liftPlain, lift_marker _ hk (by rintro rfl; cases hliteral)
          (by rintro rfl; cases hcapture), refusal]
        cases (node k as).source false <;> rfl
      | false =>
        rw [offenders_node hk] at h ⊢
        have hfields : ∀ f ∈ (node k as).fields, Refuses f.2.offenders
            (do return (f.1, ← liftPlain f.2) : Except Error (String × Value)) := by
          intro f hf
          rcases mem_held_of_mem_fields hf with hheld | hnone
          · exact (ih f.2 hheld fun u hu =>
              h u (List.mem_flatMap.mpr ⟨f, hf, hu⟩)).bind_ok
          · rw [hnone]
            exact refuses_ok _
        rw [liftPlain, lift_node _ hk]
        exact (Refuses.mapM hfields).bind_ok
    | list xs | tuple xs | set xs =>
      have hall := hitems xs (fun _ hx => hx) fun u hu => by
        simpa only [offenders_list, offenders_tuple, offenders_set] using hu
      simp only [liftPlain, lift_list, lift_tuple, lift_set, offenders_list, offenders_tuple,
        offenders_set]
      exact hall.bind_ok
    | dict es =>
      have hkeys := hitems (es.map (·.1)) (fun _ hx => List.mem_append_left _ hx)
        (offenders_dict es ▸ fun _ hu => List.mem_append_left _ hu)
      have hvalues := hitems (es.map (·.2)) (fun _ hx => List.mem_append_right _ hx)
        (offenders_dict es ▸ fun _ hu => List.mem_append_right _ hu)
      rw [liftPlain, lift_dict, offenders_dict]
      exact hkeys.bind fun _ => hvalues.bind_ok
    | none | bool | int | float | str | bytes | frozen => exact refuses_ok _
    | _ => rfl

private theorem kind_refusal {u : Value} : (refusal u).kind = .typeError ↔
    (u.isNode → ∀ e, u.source false = .error e → e.kind = .typeError) := by
  rw [refusal]
  cases u.isNode with
  | true =>
    cases u.source false with
    | ok text => simp [Error.kind, Report.kind]
    | error e => simp
  | false => simp [Error.kind, Report.kind]

/-- Every quotable value comes back from its code, completed. Lifting ends in a type error if and
only if it comes to a part for which it has no code, and the first of these is no marker or one
whose source can be shown, or fails to be with a type error. -/
theorem lower_liftPlain (v : Value) :
    (v.isQuotable = true → ∃ code, liftPlain v = .ok code ∧ lower code = .ok v.completed) ∧
    ((∀ u ∈ v.offenders, u.isKind .literal = false ∧ u.isKind .captureLater = false) →
      (errorKind? (liftPlain v) = some .typeError ↔
        ∃ u, v.offenders.head? = some u ∧
          (u.isNode = true → ∀ e, u.source false = .error e → e.kind = .typeError))) := by
  refine ⟨returns_of_isQuotable (lowerAt 999), fun h => ?_⟩
  have hrefuses := refuses_liftPlain h
  cases hus : v.offenders with
  | nil =>
    rw [hus] at hrefuses
    obtain ⟨code, hcode⟩ := hrefuses
    simp [hcode, errorKind?]
  | cons u us =>
    rw [hus] at hrefuses
    have hlift : liftPlain v = .error (refusal u) := hrefuses
    simp [hlift, errorKind?, kind_refusal]

/-- A dictionary with a set, a name that has a place but no context, and an empty return. -/
def assorted : Value :=
  .dict
    [(.str "a", .set [.int 1, .tuple [.none, .float "nan"]]),
     (.int 2, .list
      [.node .name [("lineno", .int 3), ("id", .str "x"), ("col_offset", .int 4)],
       .node .returnStmt []])]

def doneName : Value :=
  .node .done [("body", .node .name [("id", .str "x"), ("ctx", .node .load [])])]

theorem lower_liftPlain_assorted :
    assorted.isQuotable = true ∧
    (∃ code, liftPlain assorted = .ok code ∧ lower code = .ok (.dict
      [(.str "a", .set [.int 1, .tuple [.none, .float "nan"]]),
       (.int 2, .list
        [.node .name [("id", .str "x"), ("lineno", .int 3), ("col_offset", .int 4),
          ("end_lineno", .none), ("end_col_offset", .none)],
         .node .returnStmt [("value", .none), ("end_lineno", .none),
          ("end_col_offset", .none)]])])) ∧
    errorKind? (liftPlain (.list [.int 1, doneName, .ellipsis])) = some .typeError := by
  have hquotable : assorted.isQuotable = true := by decide +kernel
  have hshown : (doneName.source false).toOption.isSome = true := by decide +kernel
  refine ⟨hquotable, (lower_liftPlain assorted).1 hquotable, ?_⟩
  refine ((lower_liftPlain (.list [.int 1, doneName, .ellipsis])).2 ?_).mpr ⟨doneName, rfl, ?_⟩
  · intro u hu
    have hu : u ∈ [doneName, .ellipsis] := hu
    rcases List.mem_pair.mp hu with rfl | rfl <;> exact ⟨rfl, rfl⟩
  · intro _ e he
    rw [he] at hshown
    cases hshown

/-- A marker that stands for the context of a name cannot be shown, so the error is not the one
for markers. -/
theorem liftPlain_doneContext :
    (Value.node .name [("id", .str "x"),
      ("ctx", .node .done [("body", .node .load [])])]).offenders.length = 1 ∧
    errorKind? (liftPlain (.node .name [("id", .str "x"),
      ("ctx", .node .done [("body", .node .load [])])])) = some .printingError := by
  decide +kernel

end Quotation

end TreeMacros
