import TreeMacros.Tree.Fold
import TreeMacros.Tree.Label

/-!
# Attributes and labels

How attributes are read after they have been changed, and what labels do to a tree: labelling
reaches every node, changes nothing that can be seen, and leaves a labelled tree as it is.
-/

namespace TreeMacros

variable {as : Attrs} {name : String} {v u : Value} {k : Kind} {xs : List Value}

namespace Attrs

theorem get?_cons (as : Attrs) (name other : String) (v : Value) :
    get? ((name, v) :: as) other = if other = name then some v else get? as other := by
  by_cases h : other = name
  · simp [get?, h]
  · simp [get?, List.lookup_cons, beq_eq_false_iff_ne.mpr h, h]

theorem get?_set (as : Attrs) (name other : String) (v : Value) :
    get? (set as name v) other = if other = name then some v else get? as other := by
  induction as with
  | nil => simp [set, get?_cons]
  | cons a as ih =>
    obtain ⟨n, w⟩ := a
    by_cases h : n = name
    · simp only [set, h, beq_self_eq_true, ↓reduceIte, get?_cons]
      grind
    · simp only [set, beq_iff_eq, h, ↓reduceIte, get?_cons, ih]
      grind

theorem set_eq_self (h : get? as name = some v) : set as name v = as := by
  induction as with
  | nil => cases h
  | cons a as ih =>
    obtain ⟨n, w⟩ := a
    rw [get?_cons] at h
    by_cases hn : n = name
    · simp_all [set]
    · have hne : name ≠ n := fun e => hn e.symm
      simp_all [set]

theorem get?_erase (as : Attrs) (name other : String) :
    get? (erase as name) other = if other = name then none else get? as other := by
  induction as with
  | nil => simp [erase, get?]
  | cons a as ih =>
    obtain ⟨n, w⟩ := a
    unfold erase at ih ⊢
    by_cases h : n = name
    · simp only [h, bne_self_eq_false, Bool.false_eq_true, not_false_eq_true,
        List.filter_cons_of_neg, ih, get?_cons]
      grind
    · simp only [bne_iff_ne, ne_eq, h, not_false_eq_true, List.filter_cons_of_pos, get?_cons, ih]
      grind

theorem mem_of_get? (h : get? as name = some v) : (name, v) ∈ as := by
  induction as with
  | nil => cases h
  | cons a as ih =>
    obtain ⟨n, w⟩ := a
    rw [get?_cons] at h
    by_cases hn : name = n
    · simp_all
    · exact List.mem_cons_of_mem _ (ih (by simpa [hn] using h))

theorem mem_set {b : String × Value} (h : b ∈ set as name v) : b ∈ as ∨ b = (name, v) := by
  induction as with
  | nil => exact .inr (List.mem_singleton.mp h)
  | cons a as ih =>
    obtain ⟨n, w⟩ := a
    by_cases hn : n = name
    · simp only [set, hn, beq_self_eq_true, ↓reduceIte, List.mem_cons] at h ⊢
      grind
    · simp only [set, beq_iff_eq, hn, ↓reduceIte, List.mem_cons] at h ⊢
      grind

theorem isHidden_iff (name : String) : isHidden name ↔ name.toList.head? = some '(' := by
  rw [isHidden, String.startsWith_string_iff]
  cases h : name.toList with
  | nil => simp
  | cons c cs => simp [eq_comm (a := c)]

theorem isHidden_labelName : isHidden labelName := by
  rw [isHidden_iff]
  decide

theorem isHidden_listLabelName (name : String) : isHidden (listLabelName name) := by
  simp [isHidden_iff, listLabelName]

theorem ne_labelName (h : isHidden name = false) : name ≠ labelName := by
  rintro rfl
  rw [isHidden_labelName] at h
  cases h

theorem label?_set (h : isHidden name = false) (as : Attrs) (v : Value) :
    label? (set as name v) = label? as := by
  rw [label?, get?_set, if_neg (ne_labelName h).symm, ← label?]

theorem label?_erase (h : isHidden name = false) (as : Attrs) :
    label? (erase as name) = label? as := by
  rw [label?, get?_erase, if_neg (ne_labelName h).symm, ← label?]

theorem isSome_label?_set_int (h : (label? as).isSome) (name : String) (n : Int) :
    (label? (set as name (.int n))).isSome := by
  rw [label?, get?_set]
  by_cases hname : labelName = name
  · rw [if_pos hname]
    rfl
  · rw [if_neg hname]
    exact h

theorem label?_setLabel (as : Attrs) (n : Nat) : label? (setLabel as n) = some n := by
  simp [label?, setLabel, get?_set]

end Attrs

theorem Kind.fieldNames_nodup (k : Kind) : k.fieldNames.Nodup := by cases k <;> decide

theorem Kind.location_notMem_fieldNames (k : Kind) :
    k.located → "lineno" ∉ k.fieldNames ∧ "col_offset" ∉ k.fieldNames := by
  cases k <;> decide

theorem Kind.isHidden_of_mem (h : name ∈ k.fieldNames) : Attrs.isHidden name = false := by
  have hall : ∀ n ∈ k.fieldNames, n.toList.head? ≠ some '(' := by cases k <;> decide
  exact Bool.eq_false_iff.mpr fun hh => hall name h ((Attrs.isHidden_iff name).mp hh)

namespace Value

/-! ## Induction -/

/-- The values that a value is directly made of. -/
def held : Value → List Value
  | node _ as => as.map (·.2)
  | list xs | tuple xs | set xs | frozenset xs => xs
  | dict es => es.map (·.1) ++ es.map (·.2)
  | frozen v => [v]
  | _ => []

theorem sizeOf_lt_of_mem_held (h : u ∈ v.held) : sizeOf u < sizeOf v := by
  cases v with
  | node k as =>
    obtain ⟨⟨n, w⟩, ha, rfl⟩ := List.mem_map.mp h
    have := List.sizeOf_lt_of_mem ha
    simp only [Prod.mk.sizeOf_spec, node.sizeOf_spec] at this ⊢
    omega
  | list xs | tuple xs | set xs | frozenset xs =>
    have := List.sizeOf_lt_of_mem (show u ∈ xs from h)
    simp only [list.sizeOf_spec, tuple.sizeOf_spec, set.sizeOf_spec, frozenset.sizeOf_spec]
    omega
  | dict es =>
    rcases List.mem_append.mp h with h | h <;> obtain ⟨⟨n, w⟩, ha, rfl⟩ := List.mem_map.mp h <;>
      have := List.sizeOf_lt_of_mem ha <;>
      simp only [Prod.mk.sizeOf_spec, dict.sizeOf_spec] at this ⊢ <;> omega
  | frozen w =>
    rw [List.mem_singleton.mp h]
    simp
  | _ => cases h

theorem mem_held_of_get? (h : Attrs.get? as name = some u) : u ∈ (node k as).held :=
  List.mem_map_of_mem (f := (·.2)) (Attrs.mem_of_get? h)

@[elab_as_elim]
theorem heldInduction {P : Value → Prop} (h : ∀ v, (∀ u ∈ v.held, P u) → P v) (v : Value) : P v :=
  h v fun u _ => heldInduction h u
termination_by sizeOf v
decreasing_by exact sizeOf_lt_of_mem_held ‹_›

@[elab_as_elim]
theorem treeInduction {P : Value → Prop} (node : ∀ k as, (∀ a ∈ as, P a.2) → P (node k as))
    (list : ∀ xs, (∀ x ∈ xs, P x) → P (list xs))
    (other : ∀ v, v.isNode = false → v.isList = false → P v) (v : Value) : P v := by
  induction v using heldInduction with
  | h v ih =>
    cases v with
    | node k as => exact node k as fun a ha => ih a.2 (List.mem_map_of_mem ha)
    | list xs => exact list xs ih
    | _ => exact other _ rfl rfl

/-! ## Labelling -/

theorem labelled_node (k : Kind) (as : Attrs) (n : Nat) :
    labelled (node k as) n =
      match Attrs.label? (labelledAttrs as n).1 with
      | some _ => (node k (labelledAttrs as n).1, (labelledAttrs as n).2)
      | .none => (node k (Attrs.setLabel (labelledAttrs as n).1 (labelledAttrs as n).2),
          (labelledAttrs as n).2 + 1) := by
  rw [labelled]
  change (match Attrs.label? (labelledAttrs as n).1 with | some _ => _ | .none => _ :
    StateM Nat Value) (labelledAttrs as n).2 = _
  cases Attrs.label? (labelledAttrs as n).1 <;> rfl

theorem labelled_list (xs : List Value) (n : Nat) :
    labelled (list xs) n = (list (labelledItems xs n).1, (labelledItems xs n).2) := by
  rw [labelled]
  rfl

theorem labelled_other (hn : v.isNode = false) (hl : v.isList = false) (n : Nat) :
    v.labelled n = (v, n) := by
  cases v with
  | node => cases hn
  | list => cases hl
  | _ => simp [labelled]; rfl

theorem labelledAttrs_cons (a : String × Value) (as : Attrs) (n : Nat) :
    labelledAttrs (a :: as) n =
      ((a.1, (a.2.labelled n).1) :: (labelledAttrs as (a.2.labelled n).2).1,
        (labelledAttrs as (a.2.labelled n).2).2) := by
  obtain ⟨name, v⟩ := a
  rw [labelledAttrs]
  rfl

theorem labelledItems_cons (v : Value) (xs : List Value) (n : Nat) :
    labelledItems (v :: xs) n =
      ((v.labelled n).1 :: (labelledItems xs (v.labelled n).2).1,
        (labelledItems xs (v.labelled n).2).2) := by
  rw [labelledItems]
  rfl

theorem exists_of_mem_labelledAttrs {n : Nat} {b : String × Value}
    (h : b ∈ (labelledAttrs as n).1) : ∃ a ∈ as, b.1 = a.1 ∧ ∃ m, b.2 = (a.2.labelled m).1 := by
  induction as generalizing n with
  | nil => cases h
  | cons a as ih =>
    rw [labelledAttrs_cons] at h
    rcases List.mem_cons.mp h with rfl | h
    · exact ⟨a, List.mem_cons_self, rfl, n, rfl⟩
    · obtain ⟨c, hc, hb⟩ := ih h
      exact ⟨c, List.mem_cons_of_mem _ hc, hb⟩

theorem exists_of_mem_labelledItems {n : Nat} (h : u ∈ (labelledItems xs n).1) :
    ∃ v ∈ xs, ∃ m, u = (v.labelled m).1 := by
  induction xs generalizing n with
  | nil => cases h
  | cons v xs ih =>
    rw [labelledItems_cons] at h
    rcases List.mem_cons.mp h with rfl | h
    · exact ⟨v, List.mem_cons_self, n, rfl⟩
    · obtain ⟨w, hw, hu⟩ := ih h
      exact ⟨w, List.mem_cons_of_mem _ hw, hu⟩

def hasLabels : Value → Bool :=
  fold (fun _ as parts => (Attrs.label? as).isSome && parts.all (·.2.result)) fun v items _ =>
    match v with
    | list _ => items.all (·.result)
    | _ => true

theorem hasLabels_node :
    hasLabels (node k as) ↔
      (Attrs.label? as).isSome = true ∧ ∀ a ∈ as, a.2.hasLabels := by
  rw [hasLabels, fold_node, foldAttrs_eq, List.all_map, Bool.and_eq_true, List.all_eq_true]
  rfl

theorem hasLabels_list : hasLabels (list xs) ↔ ∀ x ∈ xs, x.hasLabels := by
  rw [hasLabels, fold_list, foldItems_eq]
  simp only [List.all_map, List.all_eq_true]
  rfl

theorem hasLabels_other (hn : v.isNode = false) (hl : v.isList = false) : v.hasLabels := by
  cases v with
  | node => cases hn
  | list => cases hl
  | _ => rfl

theorem hasLabels_of_get? (h : (node k as).hasLabels) (hv : Attrs.get? as name = some v) :
    v.hasLabels :=
  (hasLabels_node.mp h).2 _ (Attrs.mem_of_get? hv)

theorem hasLabels_labelled (v : Value) (n : Nat) : (v.labelled n).1.hasLabels := by
  induction v using treeInduction generalizing n with
  | node k as ih =>
    have hattrs : ∀ b ∈ (labelledAttrs as n).1, b.2.hasLabels := by
      intro b hb
      obtain ⟨a, ha, -, m, hm⟩ := exists_of_mem_labelledAttrs hb
      rw [hm]
      exact ih a ha m
    rw [labelled_node]
    cases hl : Attrs.label? (labelledAttrs as n).1 with
    | some l => exact hasLabels_node.mpr ⟨by rw [hl]; rfl, hattrs⟩
    | none =>
      refine hasLabels_node.mpr ⟨by rw [Attrs.label?_setLabel]; rfl, fun b hb => ?_⟩
      rcases Attrs.mem_set hb with hb | rfl
      · exact hattrs b hb
      · rfl
  | list xs ih =>
    rw [labelled_list]
    refine hasLabels_list.mpr fun u hu => ?_
    obtain ⟨v, hv, m, rfl⟩ := exists_of_mem_labelledItems hu
    exact ih v hv m
  | other v hn hl => rw [labelled_other hn hl, hasLabels_other hn hl]

theorem labelled_of_hasLabels (h : v.hasLabels) (n : Nat) : v.labelled n = (v, n) := by
  induction v using treeInduction generalizing n with
  | node k as ih =>
    obtain ⟨hl, has⟩ := hasLabels_node.mp h
    have hattrs : labelledAttrs as n = (as, n) := by
      clear hl h
      induction as with
      | nil => rfl
      | cons a as ihs =>
        rw [labelledAttrs_cons, ih a (by simp) (has a (by simp)),
          ihs (fun b hb => ih b (by simp [hb])) (fun b hb => has b (by simp [hb]))]
    rw [labelled_node, hattrs]
    cases hs : Attrs.label? as with
    | some l => rfl
    | none => simp [hs] at hl
  | list xs ih =>
    have hitems : labelledItems xs n = (xs, n) := by
      have hxs := hasLabels_list.mp h
      clear h
      induction xs with
      | nil => rfl
      | cons v xs ihs =>
        rw [labelledItems_cons, ih v (by simp) (hxs v (by simp)),
          ihs (fun b hb => ih b (by simp [hb])) (fun b hb => hxs b (by simp [hb]))]
    rw [labelled_list, hitems]
  | other v hn hl => exact labelled_other hn hl n

/-! ## Without labels -/

theorem unlabelled_other (hn : v.isNode = false) (hl : v.isList = false) : v.unlabelled = v := by
  cases v with
  | node => cases hn
  | list => cases hl
  | _ => simp [unlabelled]

theorem unlabelledItems_eq (xs : List Value) : unlabelledItems xs = xs.map unlabelled := by
  induction xs with
  | nil => rfl
  | cons v xs ih => rw [unlabelledItems, ih, List.map_cons]

theorem unlabelledAttrs_cons (a : String × Value) (as : Attrs) :
    unlabelledAttrs (a :: as) =
      if Attrs.isHidden a.1 then unlabelledAttrs as
      else (a.1, a.2.unlabelled) :: unlabelledAttrs as := by
  obtain ⟨name, v⟩ := a
  rw [unlabelledAttrs]

theorem unlabelledAttrs_set (as : Attrs) (name : String) (v : Value) :
    unlabelledAttrs (Attrs.set as name v) =
      if Attrs.isHidden name then unlabelledAttrs as
      else Attrs.set (unlabelledAttrs as) name v.unlabelled := by
  induction as with
  | nil => simp [Attrs.set, unlabelledAttrs]
  | cons a as ih =>
    obtain ⟨n, w⟩ := a
    by_cases hn : n = name
    · simp only [Attrs.set, hn, beq_self_eq_true, ↓reduceIte, unlabelledAttrs_cons]
      by_cases hh : Attrs.isHidden name <;> simp [hh, Attrs.set]
    · simp only [Attrs.set, beq_iff_eq, hn, ↓reduceIte, unlabelledAttrs_cons, ih]
      by_cases hh : Attrs.isHidden name <;> by_cases hm : Attrs.isHidden n <;>
        simp [hh, hm, Attrs.set, hn]

theorem get?_unlabelledAttrs (h : Attrs.isHidden name = false) (as : Attrs) :
    Attrs.get? (unlabelledAttrs as) name = (Attrs.get? as name).map unlabelled := by
  induction as with
  | nil => rfl
  | cons a as ih =>
    rw [unlabelledAttrs_cons, Attrs.get?_cons]
    by_cases hn : name = a.1
    · simp [← hn, h, Attrs.get?_cons]
    · by_cases hh : Attrs.isHidden a.1 <;> simp [hh, hn, ih, Attrs.get?_cons]

/-- Labelling changes nothing that can be seen. -/
theorem unlabelled_labelled (v : Value) (n : Nat) :
    (v.labelled n).1.unlabelled = v.unlabelled := by
  induction v using treeInduction generalizing n with
  | node k as ih =>
    have hattrs : unlabelledAttrs (labelledAttrs as n).1 = unlabelledAttrs as := by
      induction as generalizing n with
      | nil => rfl
      | cons a as ihs =>
        rw [labelledAttrs_cons, unlabelledAttrs_cons, unlabelledAttrs_cons,
          ih a (by simp), ihs fun b hb => ih b (by simp [hb])]
    rw [labelled_node]
    cases Attrs.label? (labelledAttrs as n).1 with
    | some l => simp only [unlabelled, hattrs]
    | none =>
      simp only [unlabelled, Attrs.setLabel, unlabelledAttrs_set, Attrs.isHidden_labelName,
        ↓reduceIte, hattrs]
  | list xs ih =>
    have hitems : unlabelledItems (labelledItems xs n).1 = unlabelledItems xs := by
      induction xs generalizing n with
      | nil => rfl
      | cons v xs ihs =>
        rw [labelledItems_cons, unlabelledItems, unlabelledItems,
          ih v (by simp), ihs fun b hb => ih b (by simp [hb])]
    rw [labelled_list, unlabelled, unlabelled, hitems]
  | other v hn hl => rw [labelled_other hn hl]

end Value

end TreeMacros
