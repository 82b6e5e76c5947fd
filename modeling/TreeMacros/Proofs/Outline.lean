import TreeMacros.Proofs.Grammar
import TreeMacros.Proofs.Passes
import TreeMacros.Tree.Location

/-!
# Outlines

What a tree says, apart from where it stands in the source text: the kinds of its nodes and what
their fields hold.
-/

namespace TreeMacros

open Attrs (get? get?_cons get?_set)

variable {k : Kind} {f : Field} {v : Value} {as bs : Attrs} {name : String}

theorem Kind.default?_of_mem (hf : f ∈ k.fields) : k.default? f.name = f.optional := by
  revert f
  cases k <;> decide

namespace Value

/-- The tree with nothing but the fields that are `shown`, in the order of the grammar. -/
def outline (shown : String → Bool) : Value → Value :=
  fold
    (fun k _ parts => node k (k.fields.filterMap fun f =>
      if shown f.name then
        match parts.lookup f.name with
        | some p => some (f.name, p.result)
        | .none => if f.optional then some (f.name, none) else .none
      else .none))
    fun v items _ =>
      match v with
      | list _ => list (items.map (·.result))
      | v => v

section

variable {shown : String → Bool}

def outlineAt (shown : String → Bool) (as : Attrs) (f : Field) : Option Value :=
  if shown f.name then (field? as f).map fun a => a.2.outline shown else .none

def outlineAttrs (shown : String → Bool) (k : Kind) (as : Attrs) : Attrs :=
  k.fields.filterMap fun f => (outlineAt shown as f).map fun v => (f.name, v)

theorem outline_node (k : Kind) (as : Attrs) :
    (node k as).outline shown = node k (outlineAttrs shown k as) := by
  rw [outline, fold_node, outlineAttrs]
  congr 2
  funext f
  rw [lookup_foldAttrs, outlineAt, field?]
  cases shown f.name with
  | false => rfl
  | true =>
    cases get? as f.name with
    | some v => rfl
    | none => cases f.optional <;> rfl

theorem outline_list (xs : List Value) :
    (list xs).outline shown = list (xs.map (outline shown)) := by
  rw [outline, fold_list, foldItems_eq, List.map_map]
  rfl

theorem outline_other (hn : v.isNode = false) (hl : v.isList = false) : v.outline shown = v := by
  cases v with
  | node => cases hn
  | list => cases hl
  | _ => rfl

theorem attr?_field (hf : f ∈ k.fields) : (node k as).attr? f.name = (field? as f).map (·.2) := by
  simp only [attr?, field?, Kind.default?_of_mem hf]
  cases get? as f.name with
  | some v => rfl
  | none =>
    cases f.optional with
    | true => rfl
    | false =>
      -- The other names of the older literal nodes are no fields of theirs.
      have hother : (k = .constant → f.name ≠ "n" ∧ f.name ≠ "s") ∧
          (k = .num ∨ k = .str ∨ k = .bytes → f.name ≠ "value") := by
        revert f
        cases k <;> decide
      simp only [Bool.false_eq_true, ↓reduceIte, Option.map_none]
      split
      next h => exact absurd h (hother.1 rfl).1
      next h => exact absurd h (hother.1 rfl).2
      next h => exact absurd h (hother.2 (.inl rfl))
      next h => exact absurd h (hother.2 (.inr (.inl rfl)))
      next h => exact absurd h (hother.2 (.inr (.inr rfl)))
      next => rfl

theorem outline_congr (h : ∀ f ∈ k.fieldNames, shown f → (get? as f).map (outline shown) =
      (get? bs f).map (outline shown)) : (node k as).outline shown = (node k bs).outline shown := by
  rw [outline_node, outline_node, outlineAttrs, outlineAttrs]
  congr 1
  refine List.filterMap_congr fun f hf => ?_
  have hat (as : Attrs) : (field? as f).map (fun a => a.2.outline shown) =
      ((get? as f.name).map (outline shown)).or (if f.optional then some none else .none) := by
    unfold field?
    cases get? as f.name <;> cases f.optional <;> rfl
  unfold outlineAt
  split
  next hshown => rw [hat, hat, h f.name (List.mem_map_of_mem hf) hshown]
  next => rfl

@[simp] theorem outline_unlabelled (v : Value) : v.unlabelled.outline shown = v.outline shown := by
  induction v using heldInduction with
  | h v ih =>
    cases v with
    | node k as =>
      rw [unlabelled]
      refine outline_congr fun f hf _ => ?_
      rw [get?_unlabelledAttrs (Kind.isHidden_of_mem hf), Option.map_map]
      cases hv : get? as f with
      | none => rfl
      | some u => exact congrArg some (ih u (mem_held_of_get? hv))
    | list xs =>
      rw [unlabelled, unlabelledItems_eq, outline_list, outline_list, List.map_map]
      exact congrArg list (List.map_congr_left fun u hu => ih u hu)
    | _ => rw [unlabelled_other rfl rfl]

@[simp] theorem outline_labelled (v : Value) (n : Nat) :
    (v.labelled n).1.outline shown = v.outline shown := by
  rw [← outline_unlabelled, unlabelled_labelled, outline_unlabelled]

@[simp] theorem kind?_outline (v : Value) : (v.outline shown).kind? = v.kind? := by
  cases v with
  | node k as => rw [outline_node]; rfl
  | list xs => rw [outline_list]; rfl
  | _ => rfl

@[simp] theorem isNode_outline (v : Value) : (v.outline shown).isNode = v.isNode := by
  cases v with
  | node k as => rw [outline_node]; rfl
  | list xs => rw [outline_list]; rfl
  | _ => rfl

@[simp] theorem isKind_outline (v : Value) (k : Kind) :
    (v.outline shown).isKind k = v.isKind k := by
  rw [isKind, isKind, kind?_outline]

@[simp] theorem isNone_outline (v : Value) : (v.outline shown).isNone = v.isNone := by
  cases v with
  | node k as => rw [outline_node]; rfl
  | list xs => rw [outline_list]; rfl
  | _ => rfl

@[simp] theorem isText_outline (v : Value) : (v.outline shown).isText = v.isText := by
  cases v with
  | node k as => rw [outline_node]; rfl
  | list xs => rw [outline_list]; rfl
  | _ => rfl

theorem get?_filterMap_of_notMem {h : Field → Option Value} {fs : List Field} {n : String}
    (hn : n ∉ fs.map (·.name)) :
    get? (fs.filterMap fun f => (h f).map fun v => (f.name, v)) n = .none := by
  induction fs with
  | nil => rfl
  | cons g fs ih =>
    rw [List.map_cons, List.mem_cons, not_or] at hn
    rw [List.filterMap_cons]
    cases hg : h g with
    | none => simpa using ih hn.2
    | some v => simpa [get?_cons, hn.1] using ih hn.2

theorem get?_filterMap_of_mem {h : Field → Option Value} {fs : List Field}
    (hnodup : (fs.map (·.name)).Nodup) (hf : f ∈ fs) :
    get? (fs.filterMap fun f => (h f).map fun v => (f.name, v)) f.name = h f := by
  induction fs with
  | nil => cases hf
  | cons g fs ih =>
    obtain ⟨hnot, hnodup⟩ := List.nodup_cons.mp hnodup
    rw [List.filterMap_cons]
    rcases List.mem_cons.mp hf with rfl | hf
    · cases hg : h f with
      | none => simpa using get?_filterMap_of_notMem hnot
      | some v => simp [get?_cons]
    · have hne : f.name ≠ g.name := by
        intro e
        apply hnot
        exact List.mem_map.mpr ⟨f, hf, e⟩
      cases hg : h g with
      | none => simpa using ih hnodup hf
      | some v => simpa [get?_cons, hne] using ih hnodup hf

theorem get?_outlineAttrs (hf : f ∈ k.fields) :
    get? (outlineAttrs shown k as) f.name = outlineAt shown as f :=
  get?_filterMap_of_mem k.fieldNames_nodup hf

theorem get?_outlineAttrs_req (hf : Field.req name ∈ k.fields) (hshown : shown name) :
    get? (outlineAttrs shown k as) name = (get? as name).map (outline shown) := by
  have hget : get? (outlineAttrs shown k as) _ = _ := get?_outlineAttrs hf
  simp only [Field.req, outlineAt, hshown, ↓reduceIte, field?, Bool.false_eq_true] at hget
  rw [hget]
  cases get? as name <;> rfl

theorem attr?_outline (hf : f ∈ k.fields) (hshown : shown f.name) :
    ((node k as).outline shown).attr? f.name = ((node k as).attr? f.name).map (outline shown) := by
  have hget : get? (outlineAttrs shown k as) f.name = _ := get?_outlineAttrs hf
  rw [outlineAt, if_pos hshown] at hget
  rw [outline_node, attr?_field hf, attr?_field hf, Option.map_map]
  simp only [field?, hget]
  cases get? as f.name with
  | some v => rfl
  | none => cases f.optional <;> rfl

theorem childrenAt_outlineAttrs (hname : name ∈ k.fieldNames) (hshown : shown name)
    (as : Attrs) :
    childrenAt (outlineAttrs shown k as) name = (childrenAt as name).map (outline shown) := by
  obtain ⟨f, hf, rfl⟩ := List.mem_map.mp hname
  have hget : get? (outlineAttrs shown k as) f.name = _ := get?_outlineAttrs hf
  rw [outlineAt, if_pos hshown, field?] at hget
  unfold childrenAt
  rw [hget]
  cases get? as f.name with
  | none => cases f.optional <;> rfl
  | some v =>
    cases v with
    | node j bs => simp [outline_node]
    | list xs =>
      simp only [Option.map_some, outline_list, List.filter_map]
      congr 1
      exact List.filter_congr fun x _ => by simp
    | _ => rfl

theorem children_outlineAttrs (hshown : ∀ f ∈ k.fieldNames, shown f) (as : Attrs) :
    children k (outlineAttrs shown k as) = (children k as).map (outline shown) := by
  unfold children
  rw [List.map_flatMap]
  exact List.flatMap_congr fun name hname => childrenAt_outlineAttrs hname (hshown name hname) as

/-- A condition that looks at outlines only holds throughout a tree if it holds throughout its
outline. -/
theorem throughout_outline {enter : Kind → Bool} {p : Kind → Attrs → Bool}
    (hshown : ∀ f, shown f) (hp : ∀ k as, p k (outlineAttrs shown k as) = p k as)
    (v : Value) : (v.outline shown).throughout enter p = v.throughout enter p := by
  induction v using walkInduction with
  | node k as ih =>
    rw [outline_node, throughout_node_eq, throughout_node_eq, hp,
      children_outlineAttrs fun f _ => hshown f, List.all_map]
    congr 2
    rw [Bool.eq_iff_iff, List.all_eq_true, List.all_eq_true]
    exact forall₂_congr fun u hu => by rw [Function.comp_apply, ih u hu]
  | rest v hn ih =>
    cases v with
    | node => cases hn
    | list xs =>
      rw [outline_list, Bool.eq_iff_iff, throughout_list, throughout_list, List.forall_mem_map]
      exact forall₂_congr fun u hu => by rw [ih u hu]
    | _ => rw [outline_other rfl rfl]

end

/-! ## Replacing children -/

/-- What an attribute holds after the nodes in it have been replaced, each by a node. -/
def replaced (g : Value → Value) (v : Value) : Value :=
  match v with
  | node k as => g (node k as)
  | list xs => list (xs.map fun u => if u.isNode then g u else u)
  | v => v

theorem outline_replaced {shown : String → Bool} {g : Value → Value} (hv : get? as name = some v)
    (h : ∀ u ∈ childrenAt as name, (g u).outline shown = u.outline shown) :
    (replaced g v).outline shown = v.outline shown := by
  cases v with
  | node k bs => exact h (node k bs) (mem_childrenAt.mpr ⟨rfl, .inl hv⟩)
  | list xs =>
    rw [replaced, outline_list, outline_list, List.map_map]
    congr 1
    apply List.map_congr_left
    intro u hu
    by_cases hn : u.isNode
    · simpa [hn] using h u (mem_childrenAt.mpr ⟨hn, .inr ⟨xs, hv, hu⟩⟩)
    · simp [hn]
  | _ => rfl

section

variable {β : Type} {onNode : Kind → Attrs → Parts β → β}
  {onRest : Value → List (Item β) → List (Item β) → β} (visit : String → β → Except Error Value)
  {g : String → Value → Value} {k : Kind} {as : Attrs}

def isVisited (v : Value) : Bool := v.isNode || v.isList

theorem replaced_of_isVisited {h : Value → Value} (hv : v.isVisited = false) :
    replaced h v = v := by
  cases v with
  | node | list => cases hv
  | _ => rfl

/-- What is left in an attribute after the nodes in it have been replaced. -/
def remains? (h : Value → Value) (v : Value) : Option Value :=
  match v with
  | node .. => if (h v).isNone then .none else some (h v)
  | list xs => some (list (xs.flatMap fun u => if u.isNode then spliced (h u) else [u]))
  | v => some v

theorem get?_replaceAt (h : Value → Value) (bs : Attrs) (name : String) (v : Value) (f : String) :
    get? (replaceAt h bs name v) f =
      if f = name ∧ v.isVisited = true then remains? h v else get? bs f := by
  cases v with
  | node =>
    rw [replaceAt, remains?]
    split <;> simp [get?_set, Attrs.get?_erase, isVisited, isNode]
  | list => simp [replaceAt, remains?, get?_set, isVisited, isList]
  | _ => simp [replaceAt, isVisited, isNode, isList]

private theorem remains?_of_isNode {h : Value → Value} (hv : get? as name = some v)
    (hnode : ∀ u ∈ childrenAt as name, (h u).isNode) : remains? h v = some (replaced h v) := by
  cases v with
  | node j cs =>
    have hn := hnode _ (mem_childrenAt.mpr ⟨rfl, .inl hv⟩)
    cases hg : h (node j cs) with
    | node => simp [remains?, replaced, hg, isNone]
    | _ => simp [hg, isNode] at hn
  | list xs =>
    rw [remains?, replaced, ← List.flatMap_singleton' (xs.map _), List.flatMap_map]
    refine congrArg (fun ys => some (list ys)) (List.flatMap_congr fun u hu => ?_)
    by_cases hn : u.isNode
    · have hgn := hnode u (mem_childrenAt.mpr ⟨hn, .inr ⟨xs, hv, hu⟩⟩)
      cases hg : h u with
      | node => simp [hn, spliced]
      | _ => simp [hg, isNode] at hgn
    · simp [hn]
  | _ => rfl

/-- What the attributes `bs` have become after a pass over a node that has `as`. A field that holds nodes
or a list has what `g` makes of it; all others are as before. -/
def Rebuilt (g : String → Value → Value) (k : Kind) (as bs cs : Attrs) : Prop :=
  ∀ f, get? cs f =
    match get? as f with
    | some v => if f ∈ k.fieldNames ∧ v.isVisited = true then some (replaced (g f) v) else get? bs f
    | .none => get? bs f

theorem Rebuilt.of_mem {cs : Attrs} (h : Rebuilt g k as bs cs) {f : String} (hf : f ∈ k.fieldNames)
    (hsame : get? bs f = get? as f) : get? cs f = (get? as f).map (replaced (g f)) := by
  rw [h f, hsame]
  cases hv : get? as f with
  | none => rfl
  | some v =>
    cases hvisited : v.isVisited with
    | true => simp [hf, hvisited]
    | false => simp [hvisited, replaced_of_isVisited hvisited]

theorem Rebuilt.of_notMem {cs : Attrs} (h : Rebuilt g k as bs cs) {f : String}
    (hf : f ∉ k.fieldNames) : get? cs f = get? bs f := by
  rw [h f]
  cases get? as f <;> simp [hf]

theorem rebuild_of_isNode (bs : Attrs)
    (h : ∀ name ∈ k.fieldNames, ∀ u ∈ childrenAt as name,
      visit name (fold onNode onRest u) = .ok (g name u) ∧ (g name u).isNode) :
    ∃ cs, rebuild (fun name (i : Item β) => visit name i.result) k bs (foldAttrs onNode onRest as) =
        .ok (node k cs) ∧ Rebuilt g k as bs cs := by
  -- The fields in `names` are still to come.
  have hgo : ∀ names, names.Nodup → (∀ f ∈ names, f ∈ k.fieldNames) → ∀ bs, ∃ cs,
      rebuild.go (fun name (i : Item β) => visit name i.result) (foldAttrs onNode onRest as)
        names bs = .ok cs ∧
      ∀ f, get? cs f =
        match get? as f with
        | some v =>
          if f ∈ names ∧ v.isVisited = true then some (replaced (g f) v) else get? bs f
        | .none => get? bs f := by
    intro names hnodup hnames
    induction names with
    | nil =>
      refine fun bs => ⟨bs, rfl, fun f => ?_⟩
      split <;> simp
    | cons name names ih =>
      intro bs
      obtain ⟨hnot, hnodup⟩ := List.nodup_cons.mp hnodup
      have hnext := ih hnodup fun f hf => hnames f (by simp [hf])
      rw [rebuild.go, lookup_foldAttrs]
      cases hv : get? as name with
      | none =>
        obtain ⟨cs, hcs, hget⟩ := hnext bs
        refine ⟨cs, hcs, fun f => ?_⟩
        rw [hget]
        by_cases hname : f = name
        · simp [hname, hv]
        · simp [hname]
      | some v =>
        have hhere := h name (hnames name (by simp))
        obtain ⟨cs, hcs, hget⟩ := hnext (replaceAt (g name) bs name v)
        refine ⟨cs, ?_, fun f => ?_⟩
        · exact Giving.ok.bind (Giving.ok.rebuildAttr bs hv fun u hu =>
            ⟨(hhere u hu).1, by simp [isPiece, (hhere u hu).2]⟩) hcs
        · rw [hget, get?_replaceAt, remains?_of_isNode hv fun u hu => (hhere u hu).2]
          by_cases hname : f = name
          · subst hname
            simp [hnot, hv]
          · simp [hname]
  obtain ⟨cs, hcs, hget⟩ := hgo _ k.fieldNames_nodup (fun _ hf => hf) bs
  refine ⟨cs, ?_, hget⟩
  rw [rebuild, hcs]
  rfl

theorem childrenAt_replaced {g : Value → Value} {f : String}
    (hget : get? bs f = (get? as f).map (replaced g))
    (hnode : ∀ u ∈ childrenAt as f, (g u).isNode) :
    childrenAt bs f = (childrenAt as f).map g := by
  cases hv : get? as f with
  | none => simp [childrenAt, hget, hv]
  | some v =>
    rw [hv, Option.map_some] at hget
    cases v with
    | node j cs =>
      have hn := hnode (node j cs) (mem_childrenAt.mpr ⟨rfl, .inl hv⟩)
      cases hg : g (node j cs) with
      | node => simp [childrenAt, hget, hv, replaced, hg]
      | _ => simp [hg, isNode] at hn
    | list xs =>
      have hn : ∀ u ∈ xs, u.isNode → (g u).isNode := fun u hu hn =>
        hnode u (mem_childrenAt.mpr ⟨hn, .inr ⟨xs, hv, hu⟩⟩)
      simp only [childrenAt, hget, hv, replaced]
      clear hget hv hnode
      induction xs with
      | nil => rfl
      | cons u xs ih =>
        have htail := ih fun v hv => hn v (by simp [hv])
        cases hu : u.isNode with
        | true => simp [hu, hn u (by simp) hu, htail]
        | false => simp [hu, htail]
    | _ => simp [childrenAt, hget, hv, replaced]

theorem map_ok_of_rebuild (visit : β → Except Error Value) {r : Value}
    (hnode : ∀ u ∈ children k as, ∀ c, visit (fold onNode onRest u) = .ok c → c.isNode)
    (h : rebuild (fun _ (i : Item β) => visit i.result) k as (foldAttrs onNode onRest as) = .ok r) :
    ∃ bs, r = node k bs ∧
      (children k bs).map .ok = (children k as).map fun u => visit (fold onNode onRest u) := by
  choose! g hg using exists_of_rebuild visit h
  have hvisit : ∀ f ∈ k.fieldNames, ∀ u ∈ childrenAt as f,
      visit (fold onNode onRest u) = .ok (g u) ∧ (g u).isNode := by
    intro f hf u hu
    have hu := mem_children.mpr ⟨f, hf, hu⟩
    exact ⟨hg u hu, hnode u hu _ (hg u hu)⟩
  obtain ⟨bs, hrun, hbs⟩ := rebuild_of_isNode (fun _ => visit) as hvisit
  cases hrun.symm.trans h
  refine ⟨bs, rfl, ?_⟩
  rw [children, children, List.map_flatMap, List.map_flatMap]
  refine List.flatMap_congr fun f hf => ?_
  rw [childrenAt_replaced (hbs.of_mem hf rfl) fun u hu => (hvisit f hf u hu).2, List.map_map]
  exact List.map_congr_left fun u hu => (hvisit f hf u hu).1.symm

end

end Value

end TreeMacros
