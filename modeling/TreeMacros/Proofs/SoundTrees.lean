import TreeMacros.Proofs.Shapes

/-!
# Trees that miss nothing but locations

What belongs into the fields of a tree is there, and where a node has a line, that is a number.
Filling in such a tree keeps its shape, and it stays such a tree if items are taken out of it.
-/

namespace TreeMacros

open Attrs (get? get?_set)
open Act (Gives)

variable {c : Category}

namespace Value

variable {k : Kind} {as bs : Attrs} {v u reference line column : Value} {xs ys : List Value}

/-! ## Lines -/

/-- The line of a node is a number, and there is no column without a line. -/
def hasSoundLine (k : Kind) (as : Attrs) : Bool :=
  k.hasField "lineno" ||
    match get? as "lineno" with
    | some line => line.toInt?.isSome
    | .none => (get? as "col_offset").isNone

theorem toInt?_unlabelled (v : Value) : v.unlabelled.toInt? = v.toInt? := by
  cases v <;> simp [unlabelled, toInt?]

private theorem hasSoundLine_unlabelledAttrs (k : Kind) (as : Attrs) :
    hasSoundLine k (unlabelledAttrs as) = hasSoundLine k as := by
  obtain ⟨hl, hc, -⟩ := isHidden_location
  rw [hasSoundLine, hasSoundLine, get?_unlabelledAttrs hl, get?_unlabelledAttrs hc]
  cases get? as "lineno" <;> simp [toInt?_unlabelled]

private theorem hasSoundLine_congr
    (hline : k.hasField "lineno" = false → get? bs "lineno" = get? as "lineno")
    (hcolumn : get? bs "col_offset" = get? as "col_offset") :
    hasSoundLine k bs = hasSoundLine k as := by
  rw [hasSoundLine, hasSoundLine, hcolumn]
  cases hf : k.hasField "lineno" with
  | true => rfl
  | false => rw [hline hf]

theorem robust_hasSoundLine : Robust hasSoundLine where
  unlabelled := hasSoundLine_unlabelledAttrs
  renewed k bs cs _ hothers h := by
    obtain ⟨hl, hc, -⟩ := isHidden_location
    have hcolumn : "col_offset" ∉ k.fieldNames := by cases k <;> decide
    refine (hasSoundLine_congr (fun hf => hothers _ hl ?_) (hothers _ hc hcolumn)).trans h
    simpa [Kind.hasField] using hf

private theorem hasSoundLine_of_moved {g : Value → Value} (hline : line.toInt?.isSome)
    (has : hasSoundLine k as)
    (h : Moved (origin .reference (placeOf line column) [(k, as)]) g k as bs) :
    hasSoundLine k bs := by
  have hcolumn : "col_offset" ∉ k.fieldNames := by cases k <;> decide
  cases hk : k.located with
  | false =>
    refine (hasSoundLine_congr (fun hf => h.others _ ?_ ?_) (h.others _ hcolumn ?_)).trans has
    · simpa [Kind.hasField] using hf
    all_goals simp [hk]
  | true =>
    unfold hasSoundLine at has ⊢
    rw [h.location hk _ (by simp), origin_reference hk]
    cases hold : get? as "lineno" with
    | none => simp [placeOf, hline]
    | some old => simpa [hold] using has

theorem attr?_of_location {name : String} (hname : name = "lineno" ∨ name = "col_offset") :
    (node k as).attr? name = get? as name := by
  have hdefault : k.default? name = false := by
    rcases hname with rfl | rfl <;> cases k <;> decide
  cases hget : get? as name with
  | some v => simp [attr?, hget]
  | none => rcases hname with rfl | rfl <;> simp [attr?, hget, hdefault]

/-- A node that gives its location away has a sound line. -/
def givesSoundLine (reference : Value) : Bool :=
  (reference.attr? "lineno").all fun line => line.toInt?.isSome

theorem givesSoundLine_of_hasSoundLine (hk : k.hasField "lineno" = false)
    (h : hasSoundLine k as) : (node k as).givesSoundLine := by
  rw [givesSoundLine, attr?_of_location (.inl rfl)]
  rw [hasSoundLine, hk, Bool.false_or] at h
  cases hline : get? as "lineno" with
  | none => rfl
  | some line => simpa [hline] using h

theorem hasAttr_of_hasSoundLine (hk : k.hasField "lineno" = false)
    (h : hasSoundLine k as) (hcolumn : (node k as).hasAttr "col_offset") :
    (node k as).hasAttr "lineno" := by
  rw [hasAttr, attr?_of_location (.inr rfl)] at hcolumn
  rw [hasAttr, attr?_of_location (.inl rfl)]
  rw [hasSoundLine, hk, Bool.false_or] at h
  cases hline : get? as "lineno" with
  | some line => rfl
  | none =>
    rw [hline] at h
    cases hget : get? as "col_offset" with
    | none => simp [hget] at hcolumn
    | some column => simp [hget] at h

/-! ## Filling in what is missing -/

theorem every_shape (v : Value) : v.shape.every Kind.obeys = v.every Kind.obeys :=
  throughout_outline (fun _ => rfl) Kind.obeys_outlineAttrs v

theorem every_of_shape (h : v.shape = u.shape) (hu : u.every Kind.obeys) :
    v.every Kind.obeys := by
  rwa [← every_shape, h, every_shape]

private theorem every_of_fixLocations {located : Value} (href : reference.givesSoundLine)
    (hv : v.every hasSoundLine)
    (h : fixLocations .reference reference.unlabelled v.unlabelled =
      (.ok located : Except Error Value)) : located.every hasSoundLine := by
  rw [← every_unlabelled robust_hasSoundLine] at hv
  unfold fixLocations at h
  split at h
  next line column hline _ =>
    rw [attr?_unlabelled isHidden_location.1] at hline
    obtain ⟨line, hget, rfl⟩ := Option.map_eq_some_iff.mp hline
    have hsound : line.toInt?.isSome := by simpa [givesSoundLine, hget] using href
    exact (sited_of_place h).every
      (fun _ _ _ _ _ => hasSoundLine_of_moved (by rwa [toInt?_unlabelled])) hv
  next =>
    cases h
    exact hv

theorem fillIn_of_obeys (hn : v.isNode) (hv : v.every Kind.obeys)
    (hlines : v.every hasSoundLine) (href : reference.givesSoundLine) (w : World) :
    ∃ fixed t, Expander.fillIn reference v w = (.ok fixed, t) ∧ fixed.shape = v.shape ∧
      fixed.every hasSoundLine = true ∧ World.OnlyJournal w t := by
  obtain ⟨located, hlocated, hnode, hshape⟩ := outline_fixLocations (fun _ => true) .reference
    reference.unlabelled (v := v.unlabelled) (.inl (by rwa [isNode_unlabelled]))
  rw [isNode_unlabelled, hn] at hnode
  have hlocatedShape : located.shape = v.shape := hshape.trans (shape_unlabelled v)
  obtain ⟨fixed, t, hrun, rfl, -, ht⟩ := Expander.fillIn_run hlocated
    (placeContexts_of_obeys hnode (every_of_shape hlocatedShape hv) .load) w
  rw [shape_unlabelled] at hlocatedShape
  have hsound := every_of_fixLocations href hlines hlocated
  rw [every_unlabelled robust_hasSoundLine] at hsound
  exact ⟨fixed, t, hrun, hlocatedShape, hsound, ht⟩

theorem shape_suite (hn : ∀ u ∈ xs, u.isNode) (hn' : ∀ u ∈ ys, u.isNode)
    (h : ys.map shape = xs.map shape) : (suite ys).shape = (suite xs).shape := by
  have hempty : ys.isEmpty = xs.isEmpty := by
    have hlength := congrArg List.length h
    rw [List.length_map, List.length_map] at hlength
    rw [Bool.eq_iff_iff, List.isEmpty_iff_length_eq_zero, List.isEmpty_iff_length_eq_zero, hlength]
  rw [suite_of_isNode hn, suite_of_isNode hn', hempty]
  split
  · rfl
  · rw [shape_list, shape_list, h]

/-- A suite that is missing locations only keeps its shape when it is filled in, unless it is
empty. -/
theorem fillIn_suite (hn : ∀ u ∈ xs, u.isNode) (hxs : ∀ u ∈ xs, u.every Kind.obeys)
    (hlines : ∀ u ∈ xs, u.every hasSoundLine) (href : reference.givesSoundLine)
    (w : World) :
    ∃ fixed t, Expander.fillIn reference (list xs) w = (.ok fixed, t) ∧
      fixed.shape = (suite xs).shape ∧ fixed.every hasSoundLine ∧ World.OnlyJournal w t := by
  obtain ⟨located, hlocated, -, hshape⟩ := outline_fixLocations (fun _ => true) .reference
    reference.unlabelled (v := (list xs).unlabelled)
    (.inr (by simpa [unlabelled, unlabelledItems_eq, isNodes] using hn))
  rw [outline_unlabelled] at hshape
  obtain ⟨ys, rfl, hshapes⟩ := exists_of_shape_list hshape
  have hof : ∀ y ∈ ys, ∃ u ∈ xs, u.shape = y.shape := fun y hy =>
    List.mem_map.mp (hshapes ▸ List.mem_map_of_mem hy)
  have hnodes : ∀ y ∈ ys, y.isNode := by
    intro y hy
    obtain ⟨u, hu, hshape⟩ := hof y hy
    rw [← isNode_shape, ← hshape, isNode_shape, hn u hu]
  have hobeys : ∀ y ∈ ys, y.every Kind.obeys := by
    intro y hy
    obtain ⟨u, hu, hshape⟩ := hof y hy
    exact every_of_shape hshape.symm (hxs u hu)
  obtain ⟨fixed, t, hrun, hfixed, -, ht⟩ := Expander.fillIn_run hlocated
    (fixContexts_suite hnodes hobeys) w
  have hsound := every_of_fixLocations href (every_list.mpr hlines) hlocated
  refine ⟨fixed, t, hrun, ?_, ?_, ht⟩
  · rw [← shape_unlabelled, hfixed, shape_suite hn hnodes hshapes]
  · rw [← every_unlabelled robust_hasSoundLine, hfixed]
    exact every_suite (every_list.mp hsound)

end Value

/-- The fields hold what belongs there, and lines are sound, throughout the tree. -/
structure Value.Sound (v : Value) : Prop where
  fields : v.every Kind.obeys = true
  lines : v.every Value.hasSoundLine = true

theorem Content.admits_of_subset {c : Content} {xs ys : List Value}
    (h : c.admits (.list xs)) (hsub : ys ⊆ xs) : c.admits (.list ys) := by
  cases c with
  | many | sparse | texts =>
    simp only [admits, List.all_eq_true] at h ⊢
    exact fun y hy => h y (hsub hy)
  | _ => cases h

namespace Value

variable {k : Kind} {as : Attrs} {v u : Value} {field : String} {items rest : List Value}

theorem Sound.many (h : (node k as).Sound) (field : String) (c : Category)
    (hf : (Field.req field, .many c) ∈ k.fields.zip k.contents) :
    ∃ xs, get? as field = some (list xs) ∧ ∀ u ∈ xs, u.isOf c ∧ u.Sound := by
  have hown := (every_node.mp h.fields).1
  obtain ⟨xs, hxs, hfields⟩ := many_of_obeys h.fields hown _ _ hf
  obtain ⟨ys, hys, hlines⟩ := many_of_obeys h.lines hown _ _ hf
  cases hxs.symm.trans hys
  exact ⟨xs, hxs, fun u hu => ⟨(hfields u hu).1, (hfields u hu).2, (hlines u hu).2⟩⟩

private theorem hasField_lineno (hv : (node k as).isOf c) (hc : c ≠ .typeIgnore) :
    k.hasField "lineno" = false := by
  have hk : k.category? = some c := by simpa [isOf, kind?] using hv
  have hfield : k.hasField "lineno" → k.category? = some .typeIgnore := by
    cases k <;> decide
  by_contra h
  rw [hfield (by simpa using h), Option.some.injEq] at hk
  exact hc hk.symm

theorem Sound.givesSoundLine (h : v.Sound) (hv : v.isOf c) (hc : c ≠ .typeIgnore) :
    v.givesSoundLine := by
  obtain ⟨k, as, rfl, -⟩ := exists_of_isOf hv
  exact givesSoundLine_of_hasSoundLine (hasField_lineno hv hc) (every_node.mp h.lines).1

theorem Sound.hasAttr (h : v.Sound) (hv : v.isOf c) (hc : c ≠ .typeIgnore)
    (hcolumn : v.hasAttr "col_offset") : v.hasAttr "lineno" := by
  obtain ⟨k, as, rfl, -⟩ := exists_of_isOf hv
  exact hasAttr_of_hasSoundLine (hasField_lineno hv hc) (every_node.mp h.lines).1 hcolumn

theorem Sound.of_unlabelled (h : v.Sound) (heq : u.unlabelled = v.unlabelled) : u.Sound := by
  refine ⟨every_of_shape ?_ h.fields, ?_⟩
  · rw [← shape_unlabelled, heq, shape_unlabelled]
  · rw [← every_unlabelled robust_hasSoundLine, heq, every_unlabelled robust_hasSoundLine]
    exact h.lines

private theorem every_set {p : Kind → Attrs → Bool} (h : (node k as).every p)
    (hget : get? as field = some (list items)) (hsub : rest ⊆ items)
    (hown : p k (Attrs.set as field (list rest))) :
    (node k (Attrs.set as field (list rest))).every p := by
  refine every_node.mpr ⟨hown, fun u hu => (every_node.mp h).2 u ?_⟩
  obtain ⟨f, hf, hu⟩ := mem_children.mp hu
  refine mem_children.mpr ⟨f, hf, ?_⟩
  obtain ⟨hn, hat⟩ := mem_childrenAt.mp hu
  refine mem_childrenAt.mpr ⟨hn, ?_⟩
  rw [get?_set] at hat
  split at hat
  next hname =>
    rw [hname]
    rcases hat with hat | ⟨ys, hys, hat⟩
    · cases hat
      cases hn
    · cases hys
      exact .inr ⟨items, hget, hsub hat⟩
  next => exact hat

theorem Sound.set (h : (node k as).Sound) (hget : get? as field = some (list items))
    (hsub : rest ⊆ items) (hline : field ≠ "lineno") (hcolumn : field ≠ "col_offset") :
    (node k (Attrs.set as field (list rest))).Sound := by
  refine ⟨every_set h.fields hget hsub ?_, every_set h.lines hget hsub ?_⟩
  · obtain ⟨hcategory, hfields⟩ := Bool.and_eq_true_iff.mp (every_node.mp h.fields).1
    refine Bool.and_eq_true_iff.mpr ⟨hcategory, List.all_eq_true.mpr fun (f, c) hfc => ?_⟩
    have hfield := List.all_eq_true.mp hfields _ hfc
    simp only [get?_set]
    split
    next u hu =>
      split at hu
      next hname =>
        cases hu
        simp only [hname, hget] at hfield
        exact Content.admits_of_subset hfield hsub
      next => simpa [hu] using hfield
    next hu =>
      split at hu
      · cases hu
      · simpa [hu] using hfield
  · refine (hasSoundLine_congr (fun _ => ?_) ?_).trans (every_node.mp h.lines).1
    · rw [get?_set, if_neg hline.symm]
    · rw [get?_set, if_neg hcolumn.symm]

end Value

end TreeMacros
