import TreeMacros.Proofs.FailureReports
import TreeMacros.Proofs.QuotedExpansion
import TreeMacros.Proofs.SoundTrees

/-!
# Quotes of quotes

A quote that stands inside of another one is expanded first. Its code gets the locations and
contexts that it is missing and is quoted in its turn. None of this shows in what the code does, so
that lowering undoes one quote after the other.
-/

namespace TreeMacros

open Value hiding none set
open Attrs (get?)
open Act (bind_ok)
open Act (Gives)

namespace Quotation

/-! ## Filling in code -/

section

variable {k : Kind} {as bs : Attrs} {u v : Value} {name : String}

@[simp] theorem Slot.admits_outline (p : Slot) (shown : String → Bool) (v : Value) :
    p.admits (v.outline shown) = p.admits v := by
  cases v with
  | node j bs => rw [outline_node]; cases p <;> rfl
  | list xs =>
    rw [outline_list]
    cases p with
    | nodes => simp [admits, isNodes, List.all_map, Function.comp_def]
    | _ => rfl
  | _ => rw [outline_other rfl rfl]

private theorem layout?_optional (k : Kind) :
    ((layout? k).all fun layout => k.fields.all fun f =>
      !f.optional || (layout.lookup f.name).all fun p => !p.admits .none) := by
  cases k <;> rfl

private theorem layout?_required (k : Kind) :
    ((layout? k).all fun layout => k.fields.all fun f =>
      f.optional || f.name == "ctx" || (layout.lookup f.name).isSome) := by
  cases k <;> rfl

private theorem layout?_ctx {layout : List (String × Slot)} (h : layout? k = some layout) :
    layout.lookup "ctx" = none := by
  have hall : ((layout? k).all fun layout => (layout.lookup "ctx").isNone) := by
    cases k <;> rfl
  rw [h] at hall
  exact Option.isNone_iff_eq_none.mp hall

private theorem layout?_text (k : Kind) :
    ((layout? k).all fun layout => k.fields.all fun f => !(["id", "attr"].contains f.name) ||
      (layout.lookup f.name).any fun p => p matches .library | .text) := by
  cases k <;> rfl

private theorem layout?_handedTo (k : Kind) :
    ((layout? k).all fun _ => k.fieldNames.all fun f => handedTo k .load f == .load) := by
  cases k <;> rfl

private theorem encodesAt_outlineAttrs (k : Kind) (as : Attrs) :
    encodesAt k (outlineAttrs (fun _ => true) k as) = encodesAt k as := by
  unfold encodesAt
  cases hlayout : layout? k with
  | none => rfl
  | some layout =>
    rw [Option.any_some, Option.any_some, Bool.eq_iff_iff, List.all_eq_true, List.all_eq_true]
    refine forall₂_congr fun name hname => ?_
    obtain ⟨f, hf, rfl⟩ := List.mem_map.mp hname
    have hget : get? (outlineAttrs (fun _ => true) k as) f.name = _ :=
      get?_outlineAttrs hf
    have hoptional : f.optional → ∀ p, layout.lookup f.name = some p →
        p.admits .none = false := by
      intro hopt p hp
      have hall := layout?_optional k
      rw [hlayout, Option.all_some, List.all_eq_true] at hall
      simpa [hopt, hp] using hall f hf
    unfold fillsSlot
    rw [hget, outlineAt, if_pos rfl, field?]
    cases hv : get? as f.name with
    | some v => cases layout.lookup f.name <;> simp
    | none =>
      cases hopt : f.optional with
      | false => rfl
      | true =>
        cases hp : layout.lookup f.name with
        | none => rfl
        | some p => simpa using hoptional hopt p hp

private theorem encodesAt_of_outline (h : u.outline (fun _ => true) = v.outline fun _ => true)
    (hv : v.throughout (fun _ => true) encodesAt) :
    u.throughout (fun _ => true) encodesAt := by
  rwa [← throughout_outline (fun _ => rfl) encodesAt_outlineAttrs, h,
    throughout_outline (fun _ => rfl) encodesAt_outlineAttrs]

private theorem keepsLocation_congr (h : k.located →
    ∀ n ∈ Kind.locationNames, get? bs n = get? as n) :
    keepsLocation k bs = keepsLocation k as := by
  unfold keepsLocation
  cases hk : k.located with
  | false => rfl
  | true =>
    simp only [hasCopiedLocation, Bool.not_true, Bool.false_or]
    rw [Bool.eq_iff_iff, List.all_eq_true, List.all_eq_true]
    exact forall₂_congr fun n hn => by rw [h hk n hn]

theorem robust_keepsLocation : Robust keepsLocation where
  unlabelled k as := by
    unfold keepsLocation hasCopiedLocation
    congr 1
    rw [Bool.eq_iff_iff, List.all_eq_true, List.all_eq_true]
    refine forall₂_congr fun n hn => ?_
    rw [get?_unlabelledAttrs (isHidden_locationNames n hn)]
    cases get? as n with
    | none => rfl
    | some v => cases v <;> simp [unlabelled]
  renewed k bs cs _ hothers h := by
    rw [keepsLocation_congr fun hk n hn =>
      hothers n (isHidden_locationNames n hn) (Kind.notMem_fieldNames hk n hn)]
    exact h

private theorem keepsLocation_of_moved {i j : Int} {g : Value → Value}
    (has : keepsLocation k as)
    (h : Moved (origin .reference (placeOf (.int i) (.int j)) [(k, as)]) g k as bs) :
    keepsLocation k bs := by
  unfold keepsLocation at has ⊢
  cases hk : k.located with
  | false => rfl
  | true =>
    rw [hk] at has
    have hold : hasCopiedLocation as := by simpa using has
    refine List.all_eq_true.mpr fun n hn => ?_
    have hat := List.all_eq_true.mp hold n hn
    by_cases hname : n ∈ ["lineno", "col_offset"]
    · rw [h.location hk n hname, origin_reference hk]
      cases hget : get? as n with
      | some u => simpa [hget] using hat
      | none => by_cases hline : n = "lineno" <;> simp [placeOf, hline]
    · rwa [h.others n (Kind.notMem_fieldNames hk n hn) fun _ => hname]

/-- A node whose location is made of numbers, where it has one. -/
def givesNumbers (reference : Value) : Prop :=
  ∀ line column, reference.attr? "lineno" = some line → reference.attr? "col_offset" = some column →
    (∃ i, line = .int i) ∧ ∃ j, column = .int j

private theorem every_keepsLocation {reference located : Value} (href : givesNumbers reference)
    (hv : v.every keepsLocation)
    (h : fixLocations .reference reference.unlabelled v.unlabelled =
      (.ok located : Except Error Value)) : located.every keepsLocation := by
  rw [← every_unlabelled robust_keepsLocation] at hv
  unfold fixLocations at h
  split at h
  next line column hline hcolumn =>
    rw [attr?_unlabelled isHidden_location.1] at hline
    rw [attr?_unlabelled isHidden_location.2.1] at hcolumn
    obtain ⟨line, hgetLine, rfl⟩ := Option.map_eq_some_iff.mp hline
    obtain ⟨column, hgetColumn, rfl⟩ := Option.map_eq_some_iff.mp hcolumn
    obtain ⟨⟨i, rfl⟩, j, rfl⟩ := href line column hgetLine hgetColumn
    exact (sited_of_place h).every (fun _ _ _ _ _ => keepsLocation_of_moved) hv
  next =>
    cases h
    exact hv

private theorem isEncoding_of_isKind_load (h : v.isKind .load) : isEncoding v := by
  cases v with
  | node j cs =>
    obtain rfl : j = .load := by simpa [isKind, kind?] using h
    refine isEncoding_node.mpr ⟨⟨rfl, rfl⟩, fun u hu => ?_⟩
    cases hu
  | _ => cases h

private theorem fillsSlot_cases {layout : List (String × Slot)}
    (h : fillsSlot layout as name) :
    (∃ p v, layout.lookup name = some p ∧ get? as name = some v ∧ p.admits v) ∨
      layout.lookup name = none ∧ (get? as name = none ∨ get? as name = some .none ∨
        name = "ctx" ∧ ∃ v, get? as name = some v ∧ v.isKind .load) := by
  unfold fillsSlot at h
  cases hp : layout.lookup name with
  | some p =>
    rw [hp] at h
    obtain ⟨v, hv, hadmits⟩ := (Option.any_eq_true _ _).mp h
    exact .inl ⟨p, v, rfl, hv, hadmits⟩
  | none =>
    rw [hp] at h
    refine .inr ⟨rfl, ?_⟩
    cases hv : get? as name with
    | none => exact .inl rfl
    | some v =>
      rw [hv, Option.all_some, Bool.or_eq_true, Bool.and_eq_true, beq_iff_eq] at h
      rcases h with hnone | ⟨hname, hload⟩
      · cases v with
        | none => exact .inr (.inl rfl)
        | _ => cases hnone
      · exact .inr (.inr ⟨hname, v, rfl, hload⟩)

private theorem isText_of_admits {p : Slot} (hp : (p matches .library | .text))
    (h : p.admits v) : v.isText := by
  cases p with
  | library =>
    cases v with
    | str => rfl
    | _ => cases h
  | text => exact h
  | _ => cases hp

private theorem isOf_of_isKind_load (h : v.isKind .load) : v.isOf .context := by
  cases v with
  | node j cs =>
    obtain rfl : j = .load := by simpa [isKind, kind?] using h
    rfl
  | _ => cases h

private theorem isFilled_of_encodesAt (h : encodesAt k as) : k.isFilled as := by
  obtain ⟨layout, hlayout, hfields⟩ := encodesAt_iff.mp h
  have hrequired := layout?_required k
  have htext := layout?_text k
  rw [hlayout, Option.all_some, List.all_eq_true] at hrequired htext
  refine List.all_eq_true.mpr fun f hf => ?_
  have hslot := hfields f.name (List.mem_map_of_mem hf)
  have hnamed : f.name ∈ ["id", "attr"] → ∀ v, get? as f.name = some v → v.isText := by
    intro hname v hv
    have hcontains : ["id", "attr"].contains f.name := by simpa using hname
    have hany := htext f hf
    rw [hcontains, Bool.not_true, Bool.false_or, Option.any_eq_true] at hany
    obtain ⟨p, hp, hmatches⟩ := hany
    rw [fillsSlot, hp, hv] at hslot
    exact isText_of_admits hmatches hslot
  have hctx : f.name = "ctx" → ∀ v, get? as f.name = some v →
      (v.isNone || v.isOf .context) = true := by
    intro hname v hv
    rw [hname] at hslot hv
    rcases fillsSlot_cases hslot with ⟨p, -, hp, -⟩ | ⟨-, hget | hget | ⟨-, u, hget, hload⟩⟩
    · rw [layout?_ctx hlayout] at hp
      cases hp
    all_goals rw [hv] at hget
    · cases hget
    · cases hget
      rfl
    · cases hget
      rw [Bool.or_eq_true]
      exact .inr (isOf_of_isKind_load hload)
  cases hv : get? as f.name with
  | none =>
    rcases fillsSlot_cases hslot with ⟨p, v, -, hget, -⟩ | ⟨hnone, -⟩
    · rw [hv] at hget
      cases hget
    · simpa [hnone] using hrequired f hf
  | some v =>
    split
    next heq hname =>
      cases heq
      exact hctx hname v hv
    next heq hname =>
      cases heq
      exact hnamed (by simp [hname]) v hv
    next heq hname =>
      cases heq
      exact hnamed (by simp [hname]) v hv
    · rfl
    next heq => cases heq

section

variable {g : Value → Value} (hbs : Refit (fun _ => g) .load k as bs)

include hbs

private theorem plan_of_refit (hg : ∀ u ∈ children k as, (g u).plan = u.plan) :
    (node k bs).plan = (node k as).plan := by
  refine stripped_node_eq_iff.mpr fun f hf => ?_
  have hname : f.name ∈ k.fieldNames := List.mem_map_of_mem hf
  unfold strippedAt
  by_cases hctx : f.name = "ctx"
  · simp [hctx]
  have hreplaced : ∀ v, get? as f.name = some v → (replaced g v).plan = v.plan := by
    intro v hv
    cases v with
    | node j cs => exact hg _ (mem_children_of_get? hname hv rfl)
    | list xs =>
      rw [replaced, plan, plan, stripped_list, stripped_list,
        List.map_map]
      refine congrArg list (List.map_congr_left fun u hu => ?_)
      by_cases hn : u.isNode
      · rw [Function.comp_apply, if_pos hn]
        exact hg u (mem_children_of_mem hname hv hu hn)
      · rw [Function.comp_apply, if_neg hn]
    | _ => rfl
  unfold field?
  rw [hbs.fields f.name hname hctx]
  cases hv : get? as f.name with
  | none => rfl
  | some v =>
    rw [Option.map_some]
    split
    · exact congrArg some (hreplaced v hv)
    · rfl

omit hbs in
private theorem admits_replaced {p : Slot} (h : p.admits v)
    (hv : get? as name = some v)
    (hg : ∀ u ∈ childrenAt as name, (g u).isNode) :
    p.admits (replaced g v) := by
  cases v with
  | node j cs =>
    cases p with
    | node => exact hg _ (mem_childrenAt.mpr ⟨rfl, .inl hv⟩)
    | _ => cases h
  | list xs =>
    cases p with
    | nodes =>
      have hxs := List.all_eq_true.mp h
      refine List.all_eq_true.mpr fun y hy => ?_
      obtain ⟨u, hu, rfl⟩ := List.mem_map.mp hy
      rw [if_pos (hxs u hu)]
      exact hg u (mem_childrenAt.mpr ⟨hxs u hu, .inr ⟨xs, hv, hu⟩⟩)
    | _ => cases h
  | _ => exact h

private theorem fillsSlot_of_refit {layout : List (String × Slot)} (hlayout : layout? k = some layout)
    (hname : name ∈ k.fieldNames) (h : fillsSlot layout as name)
    (hg : ∀ u ∈ childrenAt as name, (g u).isNode) :
    fillsSlot layout bs name := by
  by_cases hctx : name = "ctx"
  · subst hctx
    simp only [fillsSlot, layout?_ctx hlayout] at h ⊢
    rw [hbs.context]
    split
    · rfl
    · exact h
  rcases fillsSlot_cases h with ⟨p, v, hp, hv, hadmits⟩ | ⟨hnone, hv | hv | ⟨hname, -⟩⟩
  · rw [fillsSlot, hp, hbs.fields name hname hctx, hv]
    exact admits_replaced hadmits hv hg
  · rw [fillsSlot, hnone, hbs.fields name hname hctx, hv]
    rfl
  · rw [fillsSlot, hnone, hbs.fields name hname hctx, hv]
    rfl
  · exact absurd hname hctx

private theorem isEncoding_of_refit (hat : encodesAt k as) (hl : keepsLocation k as)
    (hg : ∀ u ∈ children k as, isEncoding (g u)) :
    isEncoding (.node k bs) := by
  obtain ⟨layout, hlayout, hfields⟩ := encodesAt_iff.mp hat
  have hnode : ∀ f ∈ k.fieldNames, ∀ u ∈ childrenAt as f, (g u).isNode :=
    fun f hf u hu => isNode_of_isEncoding (hg u (mem_children.mpr ⟨f, hf, hu⟩))
  have hslots : ∀ f ∈ k.fieldNames, fillsSlot layout bs f := fun f hf =>
    fillsSlot_of_refit hbs hlayout hf (hfields f hf) (hnode f hf)
  refine isEncoding_node.mpr ⟨⟨encodesAt_iff.mpr ⟨layout, hlayout, hslots⟩, ?_⟩, fun w hw => ?_⟩
  · rw [keepsLocation_congr fun hk n hn => hbs.others n (Kind.notMem_fieldNames hk n hn)]
    exact hl
  · obtain ⟨f, hf, hw⟩ := mem_children.mp hw
    by_cases hctx : f = "ctx"
    · subst hctx
      obtain ⟨hn, hw⟩ := mem_childrenAt.mp hw
      rcases fillsSlot_cases (hslots _ hf) with ⟨p, -, hp, -⟩ | ⟨-, hget | hget | ⟨-, v, hget, hload⟩⟩
      · rw [layout?_ctx hlayout] at hp
        cases hp
      all_goals rw [hget] at hw
      · rcases hw with hw | ⟨xs, hw, -⟩ <;> cases hw
      · rcases hw with hw | ⟨xs, hw, -⟩ <;> cases hw
        cases hn
      · rcases hw with hw | ⟨xs, hw, -⟩ <;> cases hw
        · exact isEncoding_of_isKind_load hload
        · cases hload
    · obtain ⟨u, hu, rfl⟩ := hbs.exists_of_mem_childrenAt hf hctx (hnode f hf) hw
      exact hg u (mem_children.mpr ⟨f, hf, hu⟩)

end

/-- Only contexts are missing in code, and they are those of reading. -/
private theorem placeContexts_of_isEncoding (h : isEncoding v) :
    ∃ w, v.placeContexts .load = (.ok w : Except Error Value) ∧ isEncoding w ∧
      w.plan = v.plan := by
  induction v using walkInduction with
  | rest v hn =>
    rw [isNode_of_isEncoding h] at hn
    cases hn
  | node k as ih =>
    obtain ⟨⟨hat, hl⟩, hchildren⟩ := isEncoding_node.mp h
    obtain ⟨layout, hlayout, -⟩ := encodesAt_iff.mp hat
    let g : Value → Value := fun u => (u.placeContexts (m := Except Error) .load).toOption.getD u
    have hg : ∀ u ∈ children k as, u.placeContexts .load = (.ok (g u) : Except Error Value) ∧
        isEncoding (g u) = true ∧ (g u).plan = u.plan := by
      intro u hu
      obtain ⟨w, hrun, hw⟩ := ih u hu (hchildren u hu)
      have hgu : g u = w := by simp [g, hrun, Except.toOption]
      rw [hgu]
      exact ⟨hrun, hw⟩
    have hhanded : ∀ f ∈ k.fieldNames, handedTo k .load f = .load := by
      have hall := layout?_handedTo k
      rw [hlayout, Option.all_some, List.all_eq_true] at hall
      exact fun f hf => by simpa using hall f hf
    obtain ⟨bs, hrun, hbs⟩ := placeContexts_node (g := fun _ => g)
      (isFilled_of_encodesAt hat) fun f hf u hu => by
        obtain ⟨hrun, henc, -⟩ := hg u (mem_children.mpr ⟨f, hf, hu⟩)
        rw [hhanded f hf]
        exact ⟨hrun, isNode_of_isEncoding henc⟩
    exact ⟨.node k bs, hrun, isEncoding_of_refit hbs hat hl fun u hu => (hg u hu).2.1,
      plan_of_refit hbs fun u hu => (hg u hu).2.2⟩

theorem fillIn_of_isEncoding (h : isEncoding v) {reference : Value}
    (href : givesNumbers reference) (w : World) :
    ∃ fixed t, Expander.fillIn reference v w = (.ok fixed, t) ∧ isEncoding fixed ∧
      fixed.plan = v.plan ∧ fixed.hasLabels ∧ World.OnlyJournal w t := by
  obtain ⟨hn, hfields, hlocations⟩ := isEncoding_iff.mp h
  obtain ⟨located, hlocated, hnode, houtline⟩ := outline_fixLocations (fun _ => true) .reference
    reference.unlabelled (v := v.unlabelled) (.inl (by rwa [isNode_unlabelled]))
  rw [isNode_unlabelled, hn] at hnode
  rw [outline_unlabelled] at houtline
  have hkeeps := every_keepsLocation href hlocations hlocated
  obtain ⟨r, hr, henc, hplan⟩ := placeContexts_of_isEncoding
    (isEncoding_iff.mpr ⟨hnode, encodesAt_of_outline houtline hfields, hkeeps⟩)
  obtain ⟨fixed, t, hrun, rfl, hlabels, ht⟩ := Expander.fillIn_run hlocated hr w
  obtain ⟨hfixed, hfixedFields, hfixedLocations⟩ := isEncoding_iff.mp henc
  refine ⟨fixed, t, hrun, isEncoding_iff.mpr ⟨?_, ?_, ?_⟩, ?_, hlabels, ht⟩
  · rwa [isNode_unlabelled] at hfixed
  · exact encodesAt_of_outline (outline_unlabelled fixed).symm hfixedFields
  · exact (every_unlabelled robust_keepsLocation fixed).symm.trans hfixedLocations
  · have hlabelsPlan : fixed.unlabelled.plan = fixed.plan :=
      stripped_of_outline (outline_unlabelled fixed)
    have hlocatedPlan : located.plan = v.plan :=
      plan_of_bare (stripped_of_outline houtline)
    rw [← hlabelsPlan, hplan, hlocatedPlan]

end

/-! ## Lowering one quote after the other -/

/-- Lowers code, then what comes of it, and so on. -/
def lowerTimes : Nat → Value → Except Error Value
  | 0, v => .ok v
  | n + 1, v => lower v >>= lowerTimes n

/-- Code for code, and so on, for the value `t`. At each level the code may have been filled in. -/
inductive Encodes (t : Value) : Nat → Value → Prop
  | value {r : Value} (same : r.bare = t.bare) : Encodes t 0 r
  | code {n : Nat} {v c code : Value} (inner : Encodes t n v) (restorable : v.isRestorable = true)
      (lifted : liftPlain v = .ok c) (plan : code.plan = c.plan) : Encodes t (n + 1) code

section

variable {t u v : Value} {n : Nat}

theorem Encodes.of_bare (h : Encodes t n v) (hu : u.bare = v.bare) : Encodes t n u := by
  cases h with
  | value same => exact .value (hu.trans same)
  | code inner restorable lifted plan =>
    exact .code inner restorable lifted ((plan_of_bare hu).trans plan)

theorem Encodes.lowerTimes (h : Encodes t n v) :
    ∃ r, lowerTimes n v = .ok r ∧ r.bare = t.bare := by
  induction n generalizing v with
  | zero =>
    cases h with
    | value same => exact ⟨v, rfl, same⟩
  | succ n ih =>
    cases h with
    | code inner restorable lifted plan =>
      obtain ⟨u, hu, hbare⟩ := rebuilds_of_isBuilt (lowerAt 999) restorable _ v lifted plan
      obtain ⟨r, hr, hrt⟩ := ih (inner.of_bare hbare)
      exact ⟨r, (except_bind_eq_ok.mpr ⟨u, hu, hr⟩), hrt⟩

end

def quoting : Macro :=
  ⟨.builtIn "q", "q", "q", some "mcpyrate.quotes", false, false, .eager q⟩

theorem quoting_mem_macros : quoting ∈ macros := by
  simp [quoting, macros, operators]

end Quotation

namespace Expander

open Quotation (Encodes isEncoding keepsLocation quoting)

variable {x : Expander} {w s : World} {t v : Value} {n : Nat}

/-! ## Trees in quotes -/

/-- The tree is `n` quotes around `t`, whatever names the expander has for `q`. The locations of the
quotes are made of numbers. -/
inductive Nests (x : Expander) (w : World) (t : Value) : Nat → Value → Prop
  | tree : Nests x w t 0 t
  | quote {n : Nat} {as bs : Attrs} {head arg : Value} {operator : String}
      (callee : get? as "value" = some head) (name : head.nameId? = some operator)
      (known : x.known? w operator = some (.transformer quoting))
      (brackets : get? as "slice" = some (.node .index bs))
      (index : get? bs "value" = some arg)
      (location : hasCopiedLocation as = true) (inner : Nests x w t n arg) :
      Nests x w t (n + 1) (.node .subscript as)

theorem Nests.mono {y : Expander} (h : x.Nests w t n v)
    (hknown : ∀ name, x.known? w name = some (.transformer quoting) →
      y.known? s name = some (.transformer quoting)) : y.Nests s t n v := by
  induction h with
  | tree => exact .tree
  | quote callee name known brackets index location _ ih =>
    exact .quote callee name (hknown _ known) brackets index location ih

private theorem hasCopiedLocation_unlabelledAttrs (as : Attrs) :
    hasCopiedLocation (unlabelledAttrs as) = hasCopiedLocation as :=
  Quotation.robust_keepsLocation.unlabelled .subscript as

private theorem nameId?_of_unlabelled {u : Value} (h : u.unlabelled = v.unlabelled) :
    u.nameId? = v.nameId? := by
  rw [← nameId?_shape u, ← shape_unlabelled, h, shape_unlabelled,
    nameId?_shape]

private theorem isRestorable_unlabelled (v : Value) :
    v.unlabelled.isRestorable = v.isRestorable := by
  induction v using heldInduction with
  | h v ih =>
    unfold isRestorable at ih ⊢
    cases v with
    | node k as =>
      have hfields : (∀ f ∈ (node k (unlabelledAttrs as)).fields,
            f.2.isBuilt hasCopiedLocation) ↔
          ∀ f ∈ (node k as).fields, f.2.isBuilt hasCopiedLocation := by
        rw [forall_mem_fields (p := fun v => v.isBuilt hasCopiedLocation) rfl,
          forall_mem_fields (p := fun v => v.isBuilt hasCopiedLocation) rfl]
        refine forall₂_congr fun f hf => ?_
        rw [get?_unlabelledAttrs (Kind.isHidden_of_mem (List.mem_map_of_mem hf))]
        cases hv : get? as f.name with
        | none => simp
        | some u => simp [ih u (mem_held_of_get? hv)]
      rw [unlabelled, Bool.eq_iff_iff, isBuilt_node, isBuilt_node,
        hasCopiedLocation_unlabelledAttrs, hfields]
    | list xs =>
      rw [unlabelled, unlabelledItems_eq, Bool.eq_iff_iff, isBuilt_list,
        isBuilt_list, List.forall_mem_map]
      exact forall₂_congr fun u hu => Bool.eq_iff_iff.mp (ih u hu)
    | _ => rw [unlabelled_other rfl rfl]

theorem Nests.exists_of_unlabelled {u : Value} (h : x.Nests w t n v)
    (hu : u.unlabelled = v.unlabelled) :
    ∃ t', x.Nests w t' n u ∧ t'.unlabelled = t.unlabelled := by
  induction h generalizing u with
  | tree => exact ⟨u, .tree, hu⟩
  | @quote n as bs head arg operator callee name known brackets index location _ ih =>
    have hidden {k : Kind} {f : String} (h : f ∈ k.fieldNames) : Attrs.isHidden f = false :=
      Kind.isHidden_of_mem h
    obtain ⟨cs, rfl, hcs⟩ := exists_of_unlabelled_eq hu
    obtain ⟨head', hhead', hhead⟩ := Option.map_eq_some_iff.mp
      ((hcs "value" (hidden (k := .subscript) (by decide))).trans (by rw [callee]; rfl))
    obtain ⟨slice', hslice', hslice⟩ := Option.map_eq_some_iff.mp
      ((hcs "slice" (hidden (k := .subscript) (by decide))).trans (by rw [brackets]; rfl))
    obtain ⟨ds, rfl, hds⟩ := exists_of_unlabelled_eq hslice
    obtain ⟨arg', harg', harg⟩ := Option.map_eq_some_iff.mp
      ((hds "value" (hidden (k := .index) (by decide))).trans (by rw [index]; rfl))
    obtain ⟨t', ht', hsame⟩ := ih harg
    have hlocation : hasCopiedLocation cs := by
      have hattrs : unlabelledAttrs cs = unlabelledAttrs as := by
        simpa [unlabelled] using hu
      rw [← hasCopiedLocation_unlabelledAttrs, hattrs, hasCopiedLocation_unlabelledAttrs, location]
    exact ⟨t', .quote hhead' ((nameId?_of_unlabelled hhead).trans name) known hslice' harg'
      hlocation ht', hsame⟩

/-! ## One quote -/

/-- An expander with no other bindings of its own than quotation operators, that can visit quoted
code: the name of the library is no macro on its own. -/
structure SparesLibrary (x : Expander) (w : World) : Prop where
  operators : ∀ b ∈ x.bindings, isQuotationOperator b.2 = true
  distinct : x.bindings.Distinct
  globals : Bindings.Distinct w.globals
  library : ∀ b, x.known? w "mcpyrate" = some b → b.isName = false
  level : ∃ n, w.quoteLevels.current = .int n ∧ 0 ≤ n

theorem SparesLibrary.known?_operatorsOnly (hx : x.SparesLibrary w) :
    (x.operatorsOnly w).known? w = x.known? w := by
  funext name
  have hfind : (x.operatorsOnly w).find? w name = x.find? w name := by
    rw [find?_eq_or, get?_bindings_operatorsOnly hx.distinct hx.globals, find?_eq_or]
    cases hb : Bindings.get? x.bindings name with
    | some b =>
      have hoperator : isQuotationOperator b := hx.operators _ (Bindings.mem_of_get? hb)
      rw [Option.some_or, Option.filter_some, if_pos hoperator, Option.some_or]
    | none =>
      cases Bindings.get? w.globals name with
      | none => rfl
      | some b =>
        rw [Option.none_or, Option.filter_some]
        split <;> rfl
  rw [known?, known?, hfind]

theorem SparesLibrary.operatorsOnly (hx : x.SparesLibrary w) {level : Int} (hlevel : 0 ≤ level) :
    (x.operatorsOnly w).SparesLibrary (w.quoting level) where
  operators b hb := (List.mem_filter.mp hb).2
  distinct := distinct_bindings_operatorsOnly hx.globals
  globals := hx.globals
  library b hb := hx.library b (by rw [← hx.known?_operatorsOnly]; exact hb)
  level := ⟨level + 1, rfl, by omega⟩

section

variable {as bs : Attrs} {head arg c : Value} {operator : String} {depth : Nat} {level : Int}

private def quoteCall (as : Attrs) (arg : Value) : Call :=
  ⟨.expr, arg, none, .list [], none, .node .subscript as⟩

private theorem visitAt_quote (callee : get? as "value" = some head)
    (name : head.nameId? = some operator)
    (known : x.known? w operator = some (.transformer quoting))
    (brackets : get? as "slice" = some (.node .index bs))
    (index : get? bs "value" = some arg) (depth : Nat) :
    visitAt (depth + 1) x (.node .subscript as) w = x.expand (visitAt depth)
      ⟨.str operator, (node .subscript as).sourceOrExplain false, quoteCall as arg⟩ w := by
  have hcandidate : head.candidate? = .ok (some (.str operator, .list [])) := by
    obtain ⟨cs, rfl⟩ : ∃ cs, head = .node .name cs := by
      unfold nameId? at name
      split at name
      · exact ⟨_, rfl⟩
      · cases name
    exact candidate?_of_reading? (c := some (operator, [])) (by rw [reading?, name]; rfl)
  exact walk_of_known? callee hcandidate brackets (attr_of_get? index) known _ _

private theorem givesNumbers_of_hasCopiedLocation (h : hasCopiedLocation as)
    (k : Kind) : Quotation.givesNumbers (.node k as) := by
  have hnumber {name : String} {u : Value} (hname : name = "lineno" ∨ name = "col_offset")
      (hu : (node k as).attr? name = some u) : ∃ i, u = .int i := by
    have hmem : name ∈ Kind.locationNames ∧ isEndName name = false := by
      rcases hname with rfl | rfl <;> decide
    have hat := List.all_eq_true.mp h name hmem.1
    rw [attr?_of_location hname] at hu
    rw [hu] at hat
    cases u with
    | int i => exact ⟨i, rfl⟩
    | none => exact absurd hat (by simp [hmem.2])
    | _ => cases hat
  exact fun line column hline hcolumn => ⟨hnumber (.inl rfl) hline, hnumber (.inr rfl) hcolumn⟩

variable (hx : x.SparesLibrary w) (callee : get? as "value" = some head)
  (name : head.nameId? = some operator)
  (known : x.known? w operator = some (.transformer quoting))
  (brackets : get? as "slice" = some (.node .index bs))
  (index : get? bs "value" = some arg)
  (hl : (node .subscript as).hasLabels = true)
  (hlevel : w.quoteLevels.current = .int level) (hnonneg : 0 ≤ level)

include callee name known brackets index hl hlevel hnonneg

private theorem visitAt_quote_of_error {e : Error}
    (hinner : visitAt depth (x.operatorsOnly w) arg (w.quoting level) = (.error e, s)) :
    ∃ e t, visitAt (depth + 1) x (.node .subscript as) w = (.error e, t) := by
  have harg : arg.hasLabels :=
    hasLabels_of_get? (hasLabels_of_get? hl brackets) index
  obtain ⟨t, hrun⟩ : ∃ t, run (visitAt depth) x quoting (Quotation.q (quoteCall as arg)) w =
      (.error e, t) := run_q_of_error rfl rfl harg hlevel hnonneg hinner
  have happly : apply (visitAt depth) x (.transformer quoting) (quoteCall as arg) w = (.error e, t) :=
    Act.bind_error hrun
  rw [visitAt_quote callee name known brackets index,
    expand_of_apply_error (bound?_of_known? known) happly]
  exact ⟨_, _, rfl⟩

include hx

private theorem visitAt_quote_of_ok (location : hasCopiedLocation as)
    (hinner : visitAt (depth + 1) (x.operatorsOnly w) arg (w.quoting level) = (.ok c, s))
    (hs : World.OnlyJournal (w.quoting level) s) (hc : c.isRestorable) :
    ∃ code c₀ t, visitAt (depth + 2) x (.node .subscript as) w = (.ok code, t) ∧
      World.OnlyJournal w t ∧ isEncoding code ∧ code.hasLabels ∧
      Quotation.liftPlain c = .ok c₀ ∧ code.plan = c₀.plan := by
  have harg : arg.hasLabels :=
    hasLabels_of_get? (hasLabels_of_get? hl brackets) index
  obtain ⟨c₀, hlift, -⟩ := Quotation.returns_of_isRestorable .ok hc
  have henc := Quotation.isEncoding_of_liftPlain hc hlift
  set t₁ : World := { { s with recursive := w.recursive } with quoteLevels := w.quoteLevels } with ht₁
  have hrun : run (visitAt (depth + 1)) x quoting (Quotation.q (quoteCall as arg)) w = (.ok c₀, t₁) :=
    run_q rfl rfl harg hlevel hnonneg hinner (Quotation.lift_of_isRestorable x.capture? hc hlift _)
      (Quotation.isFinished_of_isCode (Quotation.isCode_of_isEncoding henc))
  have hjournal : World.OnlyJournal w t₁ := by
    rw [ht₁, hs]
    rfl
  have hnode := Quotation.isNode_of_isEncoding henc
  have hcheck : ∀ location, checkOutput location c₀ = .ok c₀ := by
    cases c₀ with
    | node => exact fun _ => rfl
    | _ => cases hnode
  have hsome : c₀.isNone = false := by
    cases c₀ with
    | node => rfl
    | _ => cases hnode
  have hnumbers : Quotation.givesNumbers (quoteCall as arg).invocation :=
    givesNumbers_of_hasCopiedLocation location .subscript
  obtain ⟨code, t, hfill, hcode, hplan, hlabels, ht⟩ :=
    Quotation.fillIn_of_isEncoding henc hnumbers t₁
  have hwt : World.OnlyJournal w t := IsTrans.trans _ _ _ hjournal ht
  refine ⟨code, c₀, t, ?_, hwt, hcode, hlabels, hlift, hplan⟩
  rw [visitAt_quote callee name known brackets index, expand_eq,
    bind_ok (outputOf_of_run known rfl hrun hcheck), settle_eq, if_neg (by simp [hsome]),
    bind_ok hfill, bind_ok (Act.get_run t)]
  split
  · refine walk_of_passesOver _ _ (Quotation.isNode_of_isEncoding hcode) hlabels
      (passesOver_of_isCode (fun b hb => hx.library b ?_) (Quotation.isCode_of_isEncoding hcode))
    rwa [known?_of_globals (show t.globals = w.globals by rw [hwt])] at hb
  · rfl

end

/-! ## All quotes -/

/-- A visit comes to code for code, and so on, for the tree `t`, if that can be read, and fails if
not. -/
def ComesTo (x : Expander) (w : World) (depth : Nat) (v t : Value) (n : Nat) (readable : Bool) :
    Prop :=
  if readable then ∃ code s, visitAt depth x v w = (.ok code, s) ∧ World.OnlyJournal w s ∧
    code.isRestorable = true ∧ Encodes t n code
  else ∃ e s, visitAt depth x v w = (.error e, s)

private theorem ComesTo.quote {as bs : Attrs} {head arg : Value} {operator : String} {depth : Nat}
    {level : Int} {readable : Bool} (hx : x.SparesLibrary w)
    (callee : get? as "value" = some head) (name : head.nameId? = some operator)
    (known : x.known? w operator = some (.transformer quoting))
    (brackets : get? as "slice" = some (.node .index bs))
    (index : get? bs "value" = some arg) (location : hasCopiedLocation as)
    (hl : (node .subscript as).hasLabels)
    (hlevel : w.quoteLevels.current = .int level) (hnonneg : 0 ≤ level)
    (h : (x.operatorsOnly w).ComesTo (w.quoting level) (depth + 1) arg t n readable) :
    x.ComesTo w (depth + 2) (.node .subscript as) t (n + 1) readable := by
  cases readable with
  | true =>
    obtain ⟨c, s, hinner, hs, hc, hencodes⟩ := h
    obtain ⟨code, c₀, u, hrun, hu, hcode, -, hlift, hplan⟩ := visitAt_quote_of_ok hx callee name known
      brackets index hl hlevel hnonneg location hinner hs hc
    exact ⟨code, u, hrun, hu, Quotation.isRestorable_of_isEncoding hcode,
      .code hencodes hc hlift hplan⟩
  | false =>
    obtain ⟨e, s, hinner⟩ := h
    exact visitAt_quote_of_error callee name known brackets index hl hlevel hnonneg hinner

/-- Quotes are expanded from the inside out, each by an expander that knows the same macros. -/
private theorem comesTo_of_nests (hx : x.SparesLibrary w) (hidle : x.isIdle w = false)
    (hv : x.Nests w t n v) (hl : v.hasLabels) (hn : t.isNode)
    (ht : t.isRestorable) (hnone : x.invokesNone w t) (depth : Nat) :
    x.ComesTo w (depth + n + 1) v t n (x.passesOver w t) := by
  induction n generalizing x w v with
  | zero =>
    cases hv
    have hreads : Act.Reads (visitAt (depth + 0 + 1) x t) w (x.passesOver w t) t fun _ => True :=
      reads_walk_of_invokesNone _ _ hidle hn hl hnone
    unfold ComesTo
    unfold Act.Reads at hreads
    split
    next hpasses =>
      rw [if_pos hpasses] at hreads
      exact ⟨t, w, hreads, rfl, ht, .value rfl⟩
    next hpasses =>
      rw [if_neg hpasses] at hreads
      obtain ⟨e, -, hrun⟩ := hreads
      exact ⟨e, w, hrun⟩
  | succ n ih =>
    cases hv with
    | @quote _ as bs head arg operator callee name known brackets index location inner =>
      obtain ⟨level, hlevel, hnonneg⟩ := hx.level
      have hknown : (x.operatorsOnly w).known? (w.quoting level) = x.known? w := hx.known?_operatorsOnly
      have harg : arg.hasLabels :=
        hasLabels_of_get? (hasLabels_of_get? hl brackets) index
      have hinner := ih (hx.operatorsOnly hnonneg)
        (isIdle_of_known? (by rw [hknown]; exact known))
        (inner.mono fun name hname => by rw [hknown]; exact hname) harg
        ((invokesNone_congr hknown t).trans hnone)
      rw [passesOver_congr hknown] at hinner
      exact hinner.quote hx callee name known brackets index location hl hlevel hnonneg

/-- An expander that binds nothing but quotation operators, while the names of captured macros have
been generated. -/
structure QuotesOnly (x : Expander) (w : World) : Prop where
  operators : ∀ b ∈ x.bindings, isQuotationOperator b.2 = true ∧
    ∃ m ∈ Quotation.macros, b.2 = .transformer m
  distinct : x.bindings.Distinct
  globals : Bindings.Distinct w.globals
  generated : ∀ name b, Bindings.get? w.globals name = some b →
    ∃ base i, name = NameSupply.name base i
  level : ∃ n, w.quoteLevels.current = .int n ∧ 0 ≤ n

private theorem isName_of_mem_macros {m : Macro} (h : m ∈ Quotation.macros) : m.isName = false := by
  obtain ⟨operator, -, rfl⟩ := List.mem_map.mp h
  rfl

theorem QuotesOnly.sparesLibrary (hx : x.QuotesOnly w) : x.SparesLibrary w where
  operators b hb := (hx.operators b hb).1
  distinct := hx.distinct
  globals := hx.globals
  library b hb := by
    have hfind := (find?_of_known? hb).1
    rw [find?_eq_or] at hfind
    cases hget : Bindings.get? x.bindings "mcpyrate" with
    | some c =>
      rw [hget] at hfind
      cases hfind
      obtain ⟨-, m, hm, hc⟩ := hx.operators _ (Bindings.mem_of_get? hget)
      obtain rfl : b = .transformer m := hc
      exact isName_of_mem_macros hm
    | none =>
      rw [hget, Option.none_or] at hfind
      obtain ⟨base, i, hname⟩ := hx.generated _ b hfind
      -- A generated name has an underscore before its number.
      have hunderscore : '_' ∈ "mcpyrate".toList := by
        rw [hname]
        simp [NameSupply.name]
      exact absurd hunderscore (by decide)
  level := hx.level

private theorem comesTo_labelled (hx : x.QuotesOnly w) (hpos : 0 < n) (hv : x.Nests w t n v)
    (hnode : t.isNode) (ht : t.isRestorable) (hnone : x.invokesNone w t)
    (depth : Nat) : ∃ t', t'.bare = t.bare ∧
      x.ComesTo (w.labelling v) (depth + n + 1) (v.labelled w.journal.next).1 t' n
        (x.passesOver w t) := by
  obtain ⟨t', ht', hsame⟩ := hv.exists_of_unlabelled (unlabelled_labelled v w.journal.next)
  have hidle : x.isIdle w = false := by
    cases hv with
    | tree => exact absurd hpos (Nat.lt_irrefl 0)
    | quote _ _ known => exact isIdle_of_known? known
  have hknown : x.known? (w.labelling v) = x.known? w := rfl
  have hspares : x.SparesLibrary (w.labelling v) :=
    ⟨hx.sparesLibrary.operators, hx.distinct, hx.globals, hx.sparesLibrary.library, hx.level⟩
  have hcomes := comesTo_of_nests hspares hidle (ht'.mono fun _ h => h) (hasLabels_labelled v _)
    (by rw [← isNode_unlabelled, hsame, isNode_unlabelled, hnode])
    (by rw [← isRestorable_unlabelled, hsame, isRestorable_unlabelled, ht])
    (by rw [invokesNone_congr hknown, ← invokesNone_unlabelled, hsame, invokesNone_unlabelled, hnone])
    depth
  rw [passesOver_congr hknown, ← passesOver_unlabelled, hsame, passesOver_unlabelled] at hcomes
  refine ⟨t', ?_, hcomes⟩
  have hbare (u : Value) : u.unlabelled.bare = u.bare :=
    stripped_of_outline (outline_unlabelled u)
  rw [← hbare, hsame, hbare]

def withQuote : Expander := ⟨[("q", .transformer quoting)], "example.py"⟩

private theorem quotesOnly_withQuote : withQuote.QuotesOnly (.start (.ofQueue [])) where
  operators b hb := by
    obtain rfl : b = ("q", .transformer quoting) := by simpa [withQuote] using hb
    exact ⟨by decide, quoting, Quotation.quoting_mem_macros, rfl⟩
  distinct := List.nodup_singleton _
  globals := List.nodup_nil
  generated name b h := by cases h
  level := ⟨0, rfl, Int.le_refl 0⟩

private theorem Nests.bracketsOf (h : withQuote.Nests (.start (.ofQueue [])) t n v) :
    withQuote.Nests (.start (.ofQueue [])) t (n + 1) (bracketsOf (nameOf "q") v) :=
  .quote rfl rfl rfl rfl rfl rfl h

/-- Quotes around an expression in which no macro is invoked can be undone one after the other, if
detection can read what it looks at in the expression. If not, they cannot be expanded. -/
theorem visitTree_nested_quotes (hx : x.QuotesOnly w) (hpos : 0 < n) (hv : x.Nests w t n v)
    (hnode : t.isNode = true) (ht : t.isRestorable = true) (hnone : x.invokesNone w t = true)
    {depth : Nat} (hdepth : n < depth) :
    if x.passesOver w t then
      ∃ code s r, visitTree (visitAt depth) x none v w = (.ok code, s) ∧
        Quotation.lowerTimes n code = .ok r ∧ r.bare = t.bare
    else ∃ e s, visitTree (visitAt depth) x none v w = (.error e, s) := by
  obtain ⟨extra, rfl⟩ : ∃ extra, depth = extra + n + 1 := ⟨depth - n - 1, by omega⟩
  obtain ⟨t', hbare, hcomes⟩ := comesTo_labelled hx hpos hv hnode ht hnone extra
  rw [visitTree_none_run]
  unfold ComesTo at hcomes
  split
  next h =>
    rw [if_pos h] at hcomes
    obtain ⟨code, s, hrun, -, -, hencodes⟩ := hcomes
    obtain ⟨r, hr, hrt⟩ := hencodes.lowerTimes
    exact ⟨code, s, r, hrun, hr, hrt.trans hbare⟩
  next h =>
    rw [if_neg h] at hcomes
    exact hcomes

theorem visitTree_quote_of_quote :
    withQuote.QuotesOnly (.start (.ofQueue [])) ∧
      withQuote.Nests (.start (.ofQueue [])) (bracketsOf (nameOf "a") (nameOf "b")) 2
        (bracketsOf (nameOf "q") (bracketsOf (nameOf "q") (bracketsOf (nameOf "a") (nameOf "b")))) ∧
      withQuote.passesOver (.start (.ofQueue [])) (bracketsOf (nameOf "a") (nameOf "b")) = true ∧
      ∃ code s r, visitTree (visitAt 3) withQuote none
          (bracketsOf (nameOf "q") (bracketsOf (nameOf "q") (bracketsOf (nameOf "a") (nameOf "b"))))
          (.start (.ofQueue [])) = (.ok code, s) ∧
        Quotation.lowerTimes 2 code = .ok r ∧
          r.bare = (bracketsOf (nameOf "a") (nameOf "b")).bare := by
  have hnests : withQuote.Nests (.start (.ofQueue [])) (bracketsOf (nameOf "a") (nameOf "b")) 2
      (bracketsOf (nameOf "q") (bracketsOf (nameOf "q") (bracketsOf (nameOf "a") (nameOf "b")))) :=
    Nests.tree.bracketsOf.bracketsOf
  have hpasses : withQuote.passesOver (.start (.ofQueue []))
      (bracketsOf (nameOf "a") (nameOf "b")) = true := by decide +kernel
  have hvisit := visitTree_nested_quotes quotesOnly_withQuote (by decide) hnests rfl
    (by decide +kernel) (invokesNone_of_passesOver hpasses) (show 2 < 3 by decide)
  rw [if_pos hpasses] at hvisit
  exact ⟨quotesOnly_withQuote, hnests, hpasses, hvisit⟩

/-- A quote of `a[1:][0]` cannot be expanded, although no macro is invoked in it. -/
theorem visitTree_quote_slicedHead :
    withQuote.QuotesOnly (.start (.ofQueue [])) ∧
      withQuote.Nests (.start (.ofQueue [])) slicedHead 1 (bracketsOf (nameOf "q") slicedHead) ∧
      slicedHead.isNode = true ∧ slicedHead.isRestorable = true ∧
      withQuote.invokesNone (.start (.ofQueue [])) slicedHead = true ∧
      ∀ depth, ∃ e s, visitTree (visitAt (depth + 2)) withQuote none
        (bracketsOf (nameOf "q") slicedHead) (.start (.ofQueue [])) = (.error e, s) := by
  have hnests : withQuote.Nests (.start (.ofQueue [])) slicedHead 1
      (bracketsOf (nameOf "q") slicedHead) := Nests.tree.bracketsOf
  have hrestorable : slicedHead.isRestorable = true := by decide +kernel
  have hnone : withQuote.invokesNone (.start (.ofQueue [])) slicedHead = true := by decide +kernel
  have hpasses : withQuote.passesOver (.start (.ofQueue [])) slicedHead = false := by decide +kernel
  refine ⟨quotesOnly_withQuote, hnests, rfl, hrestorable, hnone, fun depth => ?_⟩
  obtain ⟨t', -, hcomes⟩ := comesTo_labelled quotesOnly_withQuote Nat.one_pos hnests rfl hrestorable
    hnone depth
  rw [hpasses] at hcomes
  rw [visitTree_none_run]
  exact hcomes

end Expander

end TreeMacros
