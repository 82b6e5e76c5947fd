import Mathlib
import TreeMacros.Proofs.Outline

/-!
# What renaming changes

Renaming puts one name for another in all attributes that hold a single name, at any depth, and
changes no other field. What it leaves are the lists of names in `global` and `nonlocal` statements:
the old name is gone from a tree just if none of those has it.
-/

namespace TreeMacros.Value

open Attrs (get? get?_set)

variable {old new : String} {k : Kind} {as bs : Attrs} {v : Value}

def exchanged (old new : String) (v : Value) : Value := if v.same (str old) then str new else v

/-- The fields that hold no single name. -/
def isNameless (field : String) : Bool := !(["id", "attr", "name", "arg", "asname"].contains field)

/-- What the attributes of a node that hold a single name hold. -/
def namesAt (k : Kind) (as : Attrs) : List Value := (nameFields k).filterMap (get? as)

/-- The names that a `global` or `nonlocal` statement lists. -/
def declaredAt (k : Kind) (as : Attrs) : List Value :=
  if k = .globalStmt ∨ k = .nonlocalStmt then
    match get? as "names" with
    | some (list xs) => xs
    | _ => []
  else []

/-! ## The names of one node -/

private theorem exists_of_nameFields (h : k.conforms as) {name : String}
    (hname : name ∈ nameFields k) :
    (∃ f ∈ k.fields, f.name = name ∧ (field? as f).isSome) ∧
      ∀ v, get? as name = some v → v.isVisited = false := by
  have hcontent : ∃ fc ∈ k.fields.zip k.contents, fc.1.name = name ∧
      (fc.2 = .text ∨ fc.2 = .optionalText) := by
    revert name
    cases k <;> decide
  obtain ⟨⟨f, c⟩, hfc, rfl, hc⟩ := hcontent
  have hfield := List.all_eq_true.mp (Bool.and_eq_true_iff.mp h).2 _ hfc
  dsimp only at hfield hc ⊢
  refine ⟨⟨f, (List.of_mem_zip hfc).1, rfl, ?_⟩, fun v hv => ?_⟩
  · unfold field?
    cases hv : get? as f.name with
    | none => simpa [hv] using hfield
    | some v => rfl
  · rw [hv] at hfield
    rcases hc with rfl | rfl <;> cases v <;> first | rfl | cases hfield

private theorem renameAttr_ok (old new : String) {f : Field} (hf : f ∈ k.fields)
    (h : (field? as f).isSome) :
    ∃ bs, renameAttr (str old) (str new) k as f.name = (.ok bs : Except Error Attrs) ∧
      ∀ g, get? bs g = if g = f.name then (get? as g).map (exchanged old new) else get? as g := by
  unfold renameAttr
  rw [attr, attr?_field hf]
  unfold field? at h ⊢
  cases hget : get? as f.name with
  | none =>
    rw [hget] at h
    cases hoptional : f.optional with
    | false => simp [hoptional] at h
    | true =>
      refine ⟨as, by simp [same]; rfl, fun g => ?_⟩
      split
      next hg => rw [hg, hget, Option.map_none]
      next => rfl
  | some v =>
    cases hsame : v.same (str old) with
    | true =>
      refine ⟨Attrs.set as f.name (str new), by simp [hsame]; rfl, fun g => ?_⟩
      rw [get?_set]
      split
      next hg => simp [hg, hget, exchanged, hsame]
      next => rfl
    | false =>
      refine ⟨as, by simp [hsame]; rfl, fun g => ?_⟩
      split
      next hg => simp [hg, hget, exchanged, hsame]
      next => rfl

private theorem renameAttrs_ok (old new : String) (h : k.conforms as) :
    ∃ bs, renameAttrs (str old) (str new) k as = (.ok bs : Except Error Attrs) ∧ ∀ f, get? bs f =
      if f ∈ nameFields k then (get? as f).map (exchanged old new) else get? as f := by
  have hfold : ∀ (names : List String) (as : Attrs), names.Nodup →
      (∀ name ∈ names, ∃ f ∈ k.fields, f.name = name ∧ (field? as f).isSome) →
      ∃ bs, names.foldlM (renameAttr (str old) (str new) k) as = (.ok bs : Except Error Attrs) ∧
        ∀ f, get? bs f = if f ∈ names then (get? as f).map (exchanged old new) else get? as f := by
    intro names
    induction names with
    | nil => exact fun as _ _ => ⟨as, rfl, fun f => by simp⟩
    | cons name names ih =>
      intro as hcons hnames
      obtain ⟨hnot, hnodup⟩ := List.nodup_cons.mp hcons
      obtain ⟨f, hf, rfl, hset⟩ := hnames name (by simp)
      obtain ⟨bs, hbs, hget⟩ := renameAttr_ok old new hf hset
      obtain ⟨cs, hcs, hget'⟩ := ih bs hnodup fun n hn => by
        obtain ⟨e, he, rfl, hset⟩ := hnames n (by simp [hn])
        have hne : e.name ≠ f.name := fun h => hnot (h ▸ hn)
        exact ⟨e, he, rfl, by rwa [field?, hget, if_neg hne, ← field?]⟩
      refine ⟨cs, except_bind_of_ok hbs hcs, fun g => ?_⟩
      rw [hget', hget]
      by_cases hg : g = f.name
      · simp [hg, hnot]
      · simp [hg]
  exact hfold _ as (by cases k <;> decide) fun name hname => (exists_of_nameFields h hname).1

/-! ## Trees -/

private theorem rename_node {g : Value → Value} (h : k.conforms as)
    (hvisit : ∀ u ∈ children k as,
      rename (str old) (str new) u = (.ok (g u) : Except Error Value) ∧ (g u).isNode) :
    ∃ bs, rename (str old) (str new) (node k as) = (.ok (node k bs) : Except Error Value) ∧
      ∀ f ∈ k.fieldNames, get? bs f =
        (get? as f).map (if f ∈ nameFields k then exchanged old new else replaced g) := by
  obtain ⟨bs, hbs, hget⟩ := renameAttrs_ok old new h
  obtain ⟨cs, hcs, hrebuilt⟩ := rebuild_of_isNode (fun _ (r : Except Error Value) => r) bs
    fun f hf u hu => hvisit u (mem_children.mpr ⟨f, hf, hu⟩)
  refine ⟨cs, except_bind_of_ok hbs hcs, fun f hf => ?_⟩
  by_cases hname : f ∈ nameFields k
  · rw [hrebuilt f, hget, if_pos hname, if_pos hname]
    cases hv : get? as f with
    | none => rfl
    | some v => simp [(exists_of_nameFields h hname).2 v hv]
  · rw [if_neg hname]
    exact hrebuilt.of_mem hf (by rw [hget, if_neg hname])

/-- The tree `r` is `v` with one name for another. -/
structure Renamed (old new : String) (v r : Value) : Prop where
  isNode : r.isNode = true
  outline : r.outline isNameless = v.outline isNameless
  names : r.collected namesAt = (v.collected namesAt).map (exchanged old new)
  declared : r.collected declaredAt = v.collected declaredAt

private theorem mem_nameFields_iff {f : String} (hk : k.category?.isSome)
    (hf : f ∈ k.fieldNames) : f ∈ nameFields k ↔ isNameless f = false := by
  revert f
  revert hk
  cases k <;> decide

private theorem childrenAt_of_isVisited {f : String}
    (h : ∀ v, get? as f = some v → v.isVisited = false) : childrenAt as f = [] := by
  refine List.eq_nil_iff_forall_not_mem.mpr fun u hu => ?_
  obtain ⟨hn, hu | ⟨xs, hxs, -⟩⟩ := mem_childrenAt.mp hu
  · have hvisited := h u hu
    simp [isVisited, hn] at hvisited
  · cases h _ hxs

private theorem isVisited_exchanged (h : v.isVisited = false) :
    (exchanged old new v).isVisited = false := by
  unfold exchanged
  split
  · rfl
  · exact h

private theorem declaredAt_replaced {g : Value → Value} (h : k.conforms as)
    (hget : k = .globalStmt ∨ k = .nonlocalStmt →
      get? bs "names" = (get? as "names").map (replaced g)) :
    declaredAt k bs = declaredAt k as := by
  unfold declaredAt
  split
  next hk =>
    obtain ⟨v, hv, hadmits⟩ : ∃ v, get? as "names" = some v ∧ Content.texts.admits v := by
      rcases hk with rfl | rfl <;> exact Kind.exists_of_conforms h _ _ (by decide)
    have hsame : replaced g v = v := by
      cases v with
      | list xs =>
        refine congrArg list ((List.map_congr_left fun u hu => ?_).trans xs.map_id)
        obtain ⟨s, rfl⟩ := exists_of_isText (List.all_eq_true.mp hadmits u hu)
        rfl
      | _ => cases hadmits
    rw [hget hk, hv, Option.map_some, hsame]
  next => rfl

theorem exists_renamed (old new : String) (h : v.wellFormed) :
    ∃ r, rename (str old) (str new) v = (.ok r : Except Error Value) ∧ Renamed old new v r := by
  obtain ⟨hnode, hconforms⟩ := Bool.and_eq_true_iff.mp h
  clear h
  induction v using walkInduction with
  | rest v hn _ => cases hnode.symm.trans hn
  | node k as ih =>
    obtain ⟨hhere, hbelow⟩ := throughout_node.mp hconforms
    choose! g hg using fun u hu => ih u hu (isNode_of_mem_children hu) (hbelow rfl u hu)
    obtain ⟨bs, hrun, hget⟩ := rename_node hhere fun u hu => ⟨(hg u hu).1, (hg u hu).2.isNode⟩
    have hk : k.category?.isSome := by
      simp only [Kind.conforms, Bool.and_eq_true] at hhere
      exact hhere.1.1
    have hchildren : children k bs = (children k as).map g := by
      rw [children, children, List.map_flatMap]
      refine List.flatMap_congr fun f hf => ?_
      have hf' := hget f hf
      by_cases hname : f ∈ nameFields k
      · have hvisited := (exists_of_nameFields hhere hname).2
        rw [if_pos hname] at hf'
        rw [childrenAt_of_isVisited hvisited, childrenAt_of_isVisited, List.map_nil]
        intro v hv
        obtain ⟨u, hu, rfl⟩ := Option.map_eq_some_iff.mp (hf'.symm.trans hv)
        exact isVisited_exchanged (hvisited u hu)
      · rw [if_neg hname] at hf'
        exact childrenAt_replaced hf' fun u hu => (hg u (mem_children.mpr ⟨f, hf, hu⟩)).2.isNode
    refine ⟨node k bs, hrun, rfl, outline_congr fun f hf hshown => ?_, ?_, ?_⟩
    · rw [hget f hf, if_neg (by simp [mem_nameFields_iff hk hf, hshown]), Option.map_map]
      cases hv : get? as f with
      | none => rfl
      | some v => exact congrArg some (outline_replaced hv fun u hu =>
          (hg u (mem_children.mpr ⟨f, hf, hu⟩)).2.outline)
    · rw [collected_node, collected_node, hchildren, List.map_append, List.flatMap_map,
        List.map_flatMap]
      congr 1
      · unfold namesAt
        rw [List.map_filterMap]
        refine List.filterMap_congr fun f hf => ?_
        obtain ⟨⟨e, he, rfl, -⟩, -⟩ := exists_of_nameFields hhere hf
        rw [hget _ (List.mem_map_of_mem he), if_pos hf]
      · exact List.flatMap_congr fun u hu => (hg u hu).2.names
    · rw [collected_node, collected_node, hchildren, List.flatMap_map]
      congr 1
      · refine declaredAt_replaced (g := g) hhere fun hk => ?_
        rcases hk with rfl | rfl <;> exact hget "names" (by decide)
      · exact List.flatMap_congr fun u hu => (hg u hu).2.declared

private theorem mem_collected_iff {r : Value} (hne : old ≠ new)
    (hnames : r.collected namesAt = (v.collected namesAt).map (exchanged old new))
    (hdeclared : r.collected declaredAt = v.collected declaredAt) :
    str old ∈ r.collected namesAt ++ r.collected declaredAt ↔ str old ∈ v.collected declaredAt := by
  have hnot : str old ∉ r.collected namesAt := by
    rw [hnames]
    intro hold
    obtain ⟨u, -, hu⟩ := List.mem_map.mp hold
    unfold exchanged at hu
    split at hu
    next => exact hne (by cases hu; rfl)
    next hsame => simp [hu, same] at hsame
  rw [List.mem_append, hdeclared]
  exact or_iff_right hnot

/-- A well-formed tree, or a list of such trees. -/
def areWellFormed : Value → Bool
  | list xs => xs.all wellFormed
  | v => v.wellFormed

/-- Renaming puts one name for another wherever a single name is held and changes no other field. The
names that `global` and `nonlocal` statements list stay: the old name is still in the tree just if
one of them has it. Of no trees nothing is left, not even the list. -/
theorem rename_of_wellFormed (hne : old ≠ new) (hv : v.areWellFormed = true) :
    ∃ r, rename (str old) (str new) v = (.ok r : Except Error Value) ∧
      (v = list [] ∧ r = none ∨ r.outline isNameless = v.outline isNameless) ∧
      r.collected namesAt = (v.collected namesAt).map (exchanged old new) ∧
      r.collected declaredAt = v.collected declaredAt ∧
      (str old ∈ r.collected namesAt ++ r.collected declaredAt ↔
        str old ∈ v.collected declaredAt) := by
  cases v with
  | node k as =>
    obtain ⟨r, hrun, h⟩ := exists_renamed old new hv
    exact ⟨r, hrun, .inr h.outline, h.names, h.declared, mem_collected_iff hne h.names h.declared⟩
  | list xs =>
    choose! g hg using fun x hx => exists_renamed old new (List.all_eq_true.mp hv x hx)
    have hrun : rename (str old) (str new) (list xs) =
        (.ok (suite (xs.map g)) : Except Error Value) := by
      rw [rename, fold_list, foldItems_eq]
      refine except_bind_of_ok (a := xs.map g) ?_ rfl
      rw [List.mapM_map]
      exact except_mapM_of_ok fun x hx => (hg x hx).1
    have hnames : (list (xs.map g)).collected namesAt =
        ((list xs).collected namesAt).map (exchanged old new) := by
      rw [collected_list, collected_list, List.flatMap_map, List.map_flatMap]
      exact List.flatMap_congr fun x hx => (hg x hx).2.names
    have hdeclared : (list (xs.map g)).collected declaredAt = (list xs).collected declaredAt := by
      rw [collected_list, collected_list, List.flatMap_map]
      exact List.flatMap_congr fun x hx => (hg x hx).2.declared
    rw [suite_of_isNode (by simpa using fun x hx => (hg x hx).2.isNode)] at hrun
    cases xs with
    | nil => exact ⟨none, hrun, .inl ⟨rfl, rfl⟩, rfl, rfl, by rfl⟩
    | cons x xs =>
      refine ⟨list ((x :: xs).map g), hrun, .inr ?_, hnames, hdeclared, mem_collected_iff hne hnames hdeclared⟩
      rw [outline_list, outline_list, List.map_map]
      exact congrArg list (List.map_congr_left fun x hx => (hg x hx).2.outline)
  | _ => cases hv

private def assignment (name : String) : Value :=
  node .assign [("targets", list [node .name [("id", str name), ("ctx", node .store [])]]),
    ("value", node .attributeRef [("value", node .name [("id", str "z"), ("ctx", node .load [])]),
      ("attr", str name), ("ctx", node .load [])])]

private def declareName (name : String) : Value := node .globalStmt [("names", list [str name])]

theorem rename_of_assignment :
    "x" ≠ "y" ∧ (list [assignment "x", declareName "w"]).areWellFormed = true ∧
      ∃ r, rename (str "x") (str "y") (list [assignment "x", declareName "w"]) =
          (.ok r : Except Error Value) ∧
        r.collected namesAt = [str "y", str "y", str "z"] ∧ r.collected declaredAt = [str "w"] := by
  have hv : (list [assignment "x", declareName "w"]).areWellFormed = true := by decide +kernel
  obtain ⟨r, hrun, -, hnames, hdeclared, -⟩ := rename_of_wellFormed (show "x" ≠ "y" by decide) hv
  refine ⟨by decide, hv, r, hrun, hnames.trans ?_, hdeclared.trans ?_⟩
  · cbv
  · rfl

/-- A `global` statement goes on listing the old name, so that the assignment after it is to another
variable. -/
theorem rename_of_declareName :
    rename (str "x") (str "y") (list [declareName "x", assignment "x"]) =
      (.ok (list [declareName "x", assignment "y"]) : Except Error Value) := by
  cbv

end TreeMacros.Value
