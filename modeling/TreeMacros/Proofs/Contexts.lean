import TreeMacros.Proofs.Outline
import TreeMacros.Tree.Context

/-!
# Contexts by position

Which context the place of an expression demands, and what filling in the missing contexts makes
of a tree: every context that was missing is the one that its place demands, and all else is as
before.
-/

namespace TreeMacros

open Attrs (get? get?_set)

variable {c : Context} {v : Value} {f : String}

namespace Context

/-- What can be assigned to or deleted. -/
def targets : List Kind := [.name, .attributeRef, .subscript, .starred, .list, .tuple]

/-- The context that a field demands of what stands in it, where the node itself stands in the
context `c`. A tuple, a list and a starred expression pass on what is demanded of them. -/
def demanded (c : Context) (k : Kind) (field : String) : Context :=
  match k, field with
  | .assign, "targets" | .annAssign, "target" | .augAssign, "target" | .namedExpr, "target"
  | .forStmt, "target" | .asyncFor, "target" | .comprehension, "target"
  | .withItem, "optional_vars" => store
  | .delete, "targets" => del
  | .tuple, "elts" | .list, "elts" | .starred, "value" => c
  | _, _ => load

/-- The fields of targets that hold no part of the tree: texts, and the context itself. -/
def leafFields : List String := ["id", "attr", "ctx"]

/-- Where only targets stand in the place of targets, a node hands each of its fields the context
that is demanded there. -/
theorem lookup_ofChildren {k : Kind} (hk : c = load ∨ k ∈ targets) {field : String}
    (hf : field ∈ k.fieldNames) (hleaf : field ∉ leafFields) :
    ((ofChildren k).lookup field).getD c = c.demanded k field := by
  revert field
  rcases hk with rfl | hk
  · cases k <;> decide
  · revert k
    cases c <;> decide

theorem mem_fieldNames_of_ofChildren (k : Kind) :
    ∀ name ∈ (ofChildren k).map (·.1), name ∈ k.fieldNames ∧ name ∉ leafFields := by
  cases k <;> decide

end Context

/-- A node has its required fields. Its context can be missing. -/
def Kind.isFilled (k : Kind) (as : Attrs) : Bool :=
  k.fields.all fun f =>
    match get? as f.name, f.name with
    | some v, "ctx" => v.isNone || v.isOf .context
    | some v, "id" | some v, "attr" => v.isText
    | some _, _ => true
    | none, field => f.optional || field == "ctx"

namespace Value

section

variable {β : Type}

def childItemsAt (parts : Parts β) (name : String) : List (Item β) :=
  match parts.lookup name with
  | some p =>
    match p.value with
    | .node .. => [⟨p.value, p.result⟩]
    | .list _ => p.items.filter (·.value.isNode)
    | _ => []
  | .none => []

theorem childItemsAt_foldAttrs (onNode : Kind → Attrs → Parts β → β)
    (onRest : Value → List (Item β) → List (Item β) → β) (as : Attrs) (name : String) :
    childItemsAt (foldAttrs onNode onRest as) name =
      (childrenAt as name).map fun v => ⟨v, fold onNode onRest v⟩ := by
  rw [childItemsAt, lookup_foldAttrs, childrenAt]
  rcases get? as name with _ | v
  · rfl
  · cases v with
    | list xs =>
      simp only [Option.map_some, foldPart, foldItems_eq, List.filter_map]
      rfl
    | _ => rfl

end

/-- A tree that can stand where the context `c` is demanded: its nodes have their required fields,
and only targets stand in the place of targets. -/
def fits : Value → Context → Bool :=
  fold
    (fun k as (parts : Parts (Context → Bool)) c =>
      (c == .load || Context.targets.contains k) && k.isFilled as &&
        k.fieldNames.all fun f => f ∈ Context.leafFields ||
          (childItemsAt parts f).all fun i => i.result (c.demanded k f))
    fun _ _ _ _ => true

theorem fits_node {k : Kind} {as : Attrs} :
    (node k as).fits c ↔
      (c = .load ∨ k ∈ Context.targets) ∧ k.isFilled as ∧
        ∀ f ∈ k.fieldNames, f ∉ Context.leafFields →
          ∀ u ∈ childrenAt as f, u.fits (c.demanded k f) := by
  rw [fits, fold_node]
  simp only [childItemsAt_foldAttrs, Bool.and_eq_true, Bool.or_eq_true, beq_iff_eq,
    List.contains_iff_mem, List.all_eq_true, List.all_map, decide_eq_true_eq, and_assoc,
    ← Decidable.or_iff_not_imp_left]
  rfl

/-- The tree `w` is `v` with the missing contexts filled in, where the tree stands in the
context `c`. -/
inductive Repaired : Context → Value → Value → Prop
  | node {c : Context} {k : Kind} {as bs : Attrs}
      (context : get? bs "ctx" =
        if lacksContext k as then some c.node else get? as "ctx")
      (isSet : ∀ f, f ≠ "ctx" → (get? bs f).isSome = (get? as f).isSome)
      (fields : ∀ f ∈ k.fieldNames, f ≠ "ctx" → ∀ v w, get? as f = some v →
        get? bs f = some w → Repaired (c.demanded k f) v w)
      (others : ∀ f, f ∉ k.fieldNames → get? bs f = get? as f) :
      Repaired c (node k as) (node k bs)
  | list {c : Context} {xs ys : List Value} (length : ys.length = xs.length)
      (nodes : ∀ (i : Nat) (x y : Value), xs[i]? = some x → ys[i]? = some y →
        x.isNode = true → Repaired c x y)
      (others : ∀ (i : Nat) (x y : Value), xs[i]? = some x → ys[i]? = some y →
        x.isNode = false → y = x) :
      Repaired c (list xs) (list ys)
  | same {c : Context} {v : Value} (hn : v.isNode = false) (hl : v.isList = false) :
      Repaired c v v

/-! ## Filling in contexts -/

variable {k : Kind} {as : Attrs} {c : Context}

theorem requireAttrs_eq_ok {names : List String}
    (h : ∀ name ∈ names, (v.attr? name).isSome) : v.requireAttrs names = .ok () := by
  induction names with
  | nil => rfl
  | cons name names ih =>
    obtain ⟨w, hw⟩ := Option.isSome_iff_exists.mp (h name (by simp))
    rw [requireAttrs, attr, hw]
    exact ih fun n hn => h n (by simp [hn])

theorem requireAttrs_ofChildren (has : k.isFilled as) {bs : Attrs}
    (hset : ∀ f, f ≠ "ctx" → (get? bs f).isSome = (get? as f).isSome) :
    (node k bs).requireAttrs ((Context.ofChildren k).map (·.1)) = .ok () := by
  refine requireAttrs_eq_ok fun name hname => ?_
  obtain ⟨hfield, hleaf⟩ := Context.mem_fieldNames_of_ofChildren k name hname
  obtain ⟨f, hf, rfl⟩ := List.mem_map.mp hfield
  have hne : f.name ≠ "ctx" := fun e => hleaf (e ▸ by decide)
  have hfilled := List.all_eq_true.mp has f hf
  have hbs := hset f.name hne
  rw [attr?_field hf, field?]
  cases ha : get? as f.name with
  | some v =>
    obtain ⟨w, hw⟩ := Option.isSome_iff_exists.mp (hbs.trans (by rw [ha]; rfl))
    rw [hw]
    rfl
  | none =>
    have hopt : f.optional := by simpa [ha, hne] using hfilled
    cases get? bs f.name <;> simp [hopt]

/-- The attributes of a node with its own context filled in. -/
def withContext (k : Kind) (as : Attrs) (c : Context) : Attrs :=
  if lacksContext k as then Attrs.set as "ctx" c.node else as

theorem get?_withContext (hf : f ≠ "ctx") : get? (withContext k as c) f = get? as f := by
  unfold withContext
  split
  · rw [get?_set, if_neg hf]
  · rfl

/-- The context in which a field of a node is visited. -/
def handedTo (k : Kind) (c : Context) (field : String) : Context :=
  ((Context.ofChildren k).lookup field).getD c

theorem bind_withContext (act : Attrs → Except Error Value) :
    (if lacksContext k as then (Editing.assign as "ctx" c.node >>= act : Except Error Value)
      else pure as >>= act) = act (withContext k as c) := by
  unfold withContext
  split <;> rfl

theorem placeContexts_node_of_same (hctx : lacksContext k as = false)
    (hreq : (node k as).requireAttrs ((Context.ofChildren k).map (·.1)) = .ok ())
    (h : ∀ f ∈ k.fieldNames, ∀ u ∈ childrenAt as f,
      u.placeContexts (handedTo k c f) = (.ok u : Except Error Value)) :
    (node k as).placeContexts c = (.ok (node k as) : Except Error Value) := by
  have hsame : withContext k as c = as := by simp [withContext, hctx]
  rw [placeContexts, fold_node]
  refine (bind_withContext _).trans ?_
  rw [hsame]
  simp only [hreq]
  exact Giving.ok.rebuild_of_same (fun f (r : Context → Except Error Value) => r (handedTo k c f)) h

theorem placeContexts_of_isOf_context (h : v.isOf .context) (c : Context) :
    v.placeContexts c = (.ok v : Except Error Value) := by
  obtain ⟨j, bs, rfl, hj⟩ := exists_of_isOf h
  have hplain : ∀ j : Kind, j.category? = some .context →
      j.fieldNames = [] ∧ Context.ofChildren j = [] := by
    intro j
    cases j <;> decide
  obtain ⟨hfields, hchildren⟩ := hplain j hj
  refine placeContexts_node_of_same ?_ ?_ ?_
  · simp [lacksContext, Kind.hasField, hfields]
  · rw [hchildren]
    rfl
  · simp [hfields]

theorem isLeaf_of_isFilled (has : k.isFilled as) (hf : f ∈ k.fieldNames)
    (hv : get? as f = some v) :
    (f = "ctx" → v = none ∨ v.isOf .context) ∧ (f = "id" ∨ f = "attr" → v.isText) := by
  obtain ⟨field, hfield, rfl⟩ := List.mem_map.mp hf
  have hfilled := List.all_eq_true.mp has field hfield
  constructor
  · intro hname
    rw [hname] at hv
    simp only [hname, hv, Bool.or_eq_true] at hfilled
    refine hfilled.imp_left fun hnone => ?_
    cases v with
    | none => rfl
    | _ => cases hnone
  · rintro (hname | hname) <;> rw [hname] at hv <;> simpa only [hname, hv] using hfilled

theorem childrenAt_leaf (has : k.isFilled as) (hf : f ∈ k.fieldNames)
    (hleaf : f ∈ Context.leafFields) {u : Value} (hu : u ∈ childrenAt as f) :
    f = "ctx" ∧ get? as f = some u ∧ u.isOf .context := by
  have hnames : f = "ctx" ∨ f = "id" ∨ f = "attr" := by
    simp only [Context.leafFields, List.mem_cons, List.not_mem_nil, or_false] at hleaf
    tauto
  obtain ⟨hn, hu | ⟨xs, hxs, -⟩⟩ := mem_childrenAt.mp hu
  · obtain ⟨hcontext, htext⟩ := isLeaf_of_isFilled has hf hu
    rcases hnames with hname | hname
    · rcases hcontext hname with rfl | hcontext
      · cases hn
      · exact ⟨hname, hu, hcontext⟩
    · cases u with
      | node => cases htext hname
      | _ => cases hn
  · obtain ⟨hcontext, htext⟩ := isLeaf_of_isFilled has hf hxs
    rcases hnames with hname | hname
    · rcases hcontext hname with hcontext | hcontext <;> cases hcontext
    · cases htext hname

/-- The attributes `bs` are those of a node after its context has been filled in, and after its
children in each field have been replaced. -/
structure Refit (g : String → Value → Value) (c : Context) (k : Kind) (as bs : Attrs) : Prop where
  context : get? bs "ctx" = if lacksContext k as then some c.node else get? as "ctx"
  fields : ∀ f ∈ k.fieldNames, f ≠ "ctx" →
    get? bs f = (get? as f).map (replaced (g f))
  others : ∀ f, f ∉ k.fieldNames → get? bs f = get? as f

theorem placeContexts_node {g : String → Value → Value} (has : k.isFilled as)
    (h : ∀ f ∈ k.fieldNames, ∀ u ∈ childrenAt as f,
      u.placeContexts (handedTo k c f) = (.ok (g f u) : Except Error Value) ∧
        (g f u).isNode = true) :
    ∃ bs, (node k as).placeContexts c = (.ok (node k bs) : Except Error Value) ∧
      Refit g c k as bs := by
  have hreq : (node k (withContext k as c)).requireAttrs ((Context.ofChildren k).map (·.1)) =
      .ok () := requireAttrs_ofChildren has fun f hf => by rw [get?_withContext hf]
  obtain ⟨bs, hrun, hget⟩ := rebuild_of_isNode
    (fun f (r : Context → Except Error Value) => r (handedTo k c f)) (withContext k as c) h
  refine ⟨bs, Eq.trans ?_ hrun, ?_, fun f hf hne => ?_, fun f hf => ?_⟩
  · rw [placeContexts, fold_node]
    refine (bind_withContext _).trans ?_
    simp only [hreq]
    rfl
  · rw [hget "ctx"]
    cases hv : get? as "ctx" with
    | none => simp [withContext, hv, apply_ite (get? · "ctx"), get?_set]
    | some v =>
      dsimp only
      split
      next hvisited =>
        -- A context that is there is visited and stays.
        obtain ⟨hfield, hvisited⟩ := hvisited
        have hcontext : v.isOf .context := by
          rcases (isLeaf_of_isFilled has hfield hv).1 rfl with rfl | hcontext
          · cases hvisited
          · exact hcontext
        obtain ⟨j, cs, rfl, -⟩ := exists_of_isOf hcontext
        have hsame : g "ctx" (node j cs) = node j cs := by
          have hrun := (h "ctx" hfield (node j cs) (mem_childrenAt.mpr ⟨rfl, .inl hv⟩)).1
          rw [placeContexts_of_isOf_context hcontext] at hrun
          exact (Except.ok.inj hrun).symm
        have hhas : lacksContext k as = false := by simp [lacksContext, hv]
        simp [replaced, hsame, hhas]
      next => simp [withContext, hv, apply_ite (get? · "ctx"), get?_set]
  · exact hget.of_mem hf (get?_withContext hne)
  · rw [hget.of_notMem hf]
    by_cases hctx : f = "ctx"
    · have hhas : lacksContext k as = false := by
        simp [lacksContext, Kind.hasField, ← hctx, hf]
      rw [withContext, hhas]
      rfl
    · exact get?_withContext hctx

namespace Refit

variable {g : String → Value → Value} {bs : Attrs}

theorem isSet (h : Refit g c k as bs) (hf : f ≠ "ctx") :
    (get? bs f).isSome = (get? as f).isSome := by
  by_cases hfield : f ∈ k.fieldNames
  · rw [h.fields f hfield hf, Option.isSome_map]
  · rw [h.others f hfield]

theorem lacksContext (h : Refit g c k as bs) : lacksContext k bs = false := by
  unfold Value.lacksContext
  rw [h.context]
  cases hlacks : Value.lacksContext k as with
  | true => simp [Context.node]
  | false => exact hlacks

theorem exists_of_mem_childrenAt (h : Refit g c k as bs) (hf : f ∈ k.fieldNames) (hne : f ≠ "ctx")
    (hnode : ∀ u ∈ childrenAt as f, (g f u).isNode) {w : Value} (hw : w ∈ childrenAt bs f) :
    ∃ u ∈ childrenAt as f, w = g f u := by
  rw [childrenAt_replaced (h.fields f hf hne) hnode] at hw
  obtain ⟨u, hu, rfl⟩ := List.mem_map.mp hw
  exact ⟨u, hu, rfl⟩

theorem isOf_context (h : Refit g c k as bs) (has : k.isFilled as)
    (hf : "ctx" ∈ k.fieldNames) {w : Value} (hw : w ∈ childrenAt bs "ctx") :
    w.isOf .context := by
  rw [childrenAt, h.context] at hw
  split_ifs at hw with hlacks
  · obtain rfl : w = c.node := List.mem_singleton.mp hw
    cases c <;> rfl
  · exact (childrenAt_leaf has hf (by decide) hw).2.2

theorem repaired (h : Refit g c k as bs)
    (hparts : ∀ f ∈ k.fieldNames, f ≠ "ctx" → ∀ u ∈ childrenAt as f,
      Repaired (c.demanded k f) u (g f u)) : Repaired c (node k as) (node k bs) := by
  refine .node h.context (fun f hf => h.isSet hf) (fun f hf hne v w hv hw => ?_) h.others
  rw [h.fields f hf hne, hv] at hw
  cases hw
  cases v with
  | node j cs => exact hparts f hf hne _ (mem_childrenAt.mpr ⟨rfl, .inl hv⟩)
  | list xs =>
    refine .list (by simp) (fun i x y hx hy hn => ?_) fun i x y hx hy hn => ?_
    · rw [List.getElem?_map, hx] at hy
      have hchild := hparts f hf hne x
        (mem_childrenAt.mpr ⟨hn, .inr ⟨xs, hv, List.mem_of_getElem? hx⟩⟩)
      simpa [hn, ← Option.some.inj hy] using hchild
    · rw [List.getElem?_map, hx] at hy
      simpa [hn] using (Option.some.inj hy).symm
  | _ => exact .same rfl rfl

end Refit

/-- Contexts can be filled in wherever a tree fits. The missing ones are those that are demanded,
and once they are there nothing is left to do. -/
theorem placeContexts_repairs (hn : v.isNode) (h : v.fits c) :
    ∃ w, v.placeContexts c = (.ok w : Except Error Value) ∧ w.isNode ∧ Repaired c v w ∧
      w.placeContexts c = (.ok w : Except Error Value) := by
  induction v using walkInduction generalizing c with
  | rest v hrest => simp [hn] at hrest
  | node k as ih =>
    obtain ⟨htarget, has, hchildren⟩ := fits_node.mp h
    let g : String → Value → Value := fun f u =>
      (u.placeContexts (m := Except Error) (handedTo k c f)).toOption.getD u
    have hg {f : String} {u w : Value}
        (hrun : u.placeContexts (handedTo k c f) = (.ok w : Except Error Value)) : g f u = w := by
      simp [g, hrun, Except.toOption]
    have hvisit : ∀ f ∈ k.fieldNames, ∀ u ∈ childrenAt as f,
        u.placeContexts (handedTo k c f) = (.ok (g f u) : Except Error Value) ∧
          (g f u).isNode = true ∧ (f ≠ "ctx" → Repaired (c.demanded k f) u (g f u)) ∧
            (g f u).placeContexts (handedTo k c f) = (.ok (g f u) : Except Error Value) := by
      intro f hf u hu
      by_cases hleaf : f ∈ Context.leafFields
      · obtain ⟨hname, -, hcontext⟩ := childrenAt_leaf has hf hleaf hu
        have hrun := placeContexts_of_isOf_context hcontext (handedTo k c f)
        rw [hg hrun]
        exact ⟨hrun, (mem_childrenAt.mp hu).1, absurd hname, hrun⟩
      · have hctx : handedTo k c f = c.demanded k f := Context.lookup_ofChildren htarget hf hleaf
        obtain ⟨w, hrun, hwn, hw, hagain⟩ := ih u (mem_children.mpr ⟨f, hf, hu⟩)
          (mem_childrenAt.mp hu).1 (hchildren f hf hleaf u hu)
        rw [← hctx] at hrun hagain
        rw [hg hrun]
        exact ⟨hrun, hwn, fun _ => hw, hagain⟩
    obtain ⟨bs, hrun, hbs⟩ := placeContexts_node has fun f hf u hu =>
      ⟨(hvisit f hf u hu).1, (hvisit f hf u hu).2.1⟩
    refine ⟨node k bs, hrun, rfl, hbs.repaired fun f hf hne u hu => (hvisit f hf u hu).2.2.1 hne, ?_⟩
    refine placeContexts_node_of_same hbs.lacksContext
      (requireAttrs_ofChildren has fun f hf => hbs.isSet hf) fun f hf w hw => ?_
    by_cases hname : f = "ctx"
    · subst hname
      exact placeContexts_of_isOf_context (hbs.isOf_context has hf hw) _
    · obtain ⟨u, hu, rfl⟩ := hbs.exists_of_mem_childrenAt hf hname
        (fun u hu => (hvisit f hf u hu).2.1) hw
      exact (hvisit f hf u hu).2.2.2

/-- Filling in the contexts of a tree gives every missing one as its place demands, leaves all else
as it was, and has nothing to do a second time. -/
theorem fixContexts_repairs {v : Value} (hn : v.isNode = true) (h : v.fits .load = true) :
    ∃ w, v.fixContexts = (.ok w : Except Error Value) ∧ Repaired .load v w ∧
      w.fixContexts = (.ok w : Except Error Value) := by
  obtain ⟨w, hrun, -, hrepaired, hagain⟩ := placeContexts_repairs hn h
  exact ⟨w, hrun, hrepaired, hagain⟩

private def openName (id : String) : Value := node .name [("id", str id)]

/-- A loop `for (a.b, *c[[y for y in z]]) in w: del d` that leaves its contexts open, one of them
with an empty value. -/
def openLoop : Value :=
  let comprehension := node .comprehension [("target", openName "y"), ("iter", openName "z"),
    ("ifs", list []), ("is_async", int 0)]
  let slice := node .listComp [("elt", openName "y"), ("generators", list [comprehension])]
  let starred := node .starred [("value", node .subscript [("value", openName "c"),
    ("slice", node .index [("value", slice)])])]
  let target := node .tuple [("elts", list [
    node .attributeRef [("value", openName "a"), ("attr", str "b"), ("ctx", none)], starred])]
  node .forStmt [("target", target), ("iter", openName "w"),
    ("body", list [node .delete [("targets", list [openName "d"])]]), ("orelse", list [])]

theorem fixContexts_repairs_openLoop : openLoop.fits .load = true ∧
    ∃ w, openLoop.fixContexts = (.ok w : Except Error Value) ∧ Repaired .load openLoop w ∧
      w.fixContexts = (.ok w : Except Error Value) :=
  ⟨by decide, fixContexts_repairs rfl (by decide)⟩

end Value

end TreeMacros
