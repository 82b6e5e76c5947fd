import TreeMacros.Proofs.Settling

/-!
# Trees in their places

A tree stands in a context if each of its nodes says that it is used as its place demands. Passes
that fill in locations, fill in contexts and remove markers keep trees standing.

Two things can be allowed. Contexts may be missing, as in what macros give. And in the place of a
target there may be an expression with the contexts of one that is loaded.
-/

namespace TreeMacros

open Attrs (get?)
open Act (Ensures ensures_pure ensures_throw Gives)

namespace Context

/-- The context that a field demands of what stands in it. What a marker holds stands where the
marker stands. -/
def inside (c : Context) (k : Kind) (field : String) : Context :=
  if Kind.expanderMarker.isMarkerOf k then c else c.demanded k field

/-- What can stand where the context is demanded. -/
def receives (c : Context) (k : Kind) : Bool :=
  c == load || targets.contains k || Kind.expanderMarker.isMarkerOf k

theorem handedTo_eq_inside {c : Context} {k : Kind} (hk : c.receives k) {field : String}
    (hf : field ∈ k.fieldNames) (hleaf : field ∉ leafFields) :
    Value.handedTo k c field = c.inside k field := by
  cases hmarker : Kind.expanderMarker.isMarkerOf k with
  | true =>
    have hnone : ofChildren k = [] := by
      revert hmarker
      cases k <;> decide
    rw [Value.handedTo, hnone, inside, hmarker]
    rfl
  | false =>
    have htarget : c = load ∨ k ∈ targets := by
      simpa [receives, hmarker] using hk
    rw [inside, hmarker]
    exact lookup_ofChildren htarget hf hleaf

end Context

/-- How far contexts may differ from those that are demanded. -/
structure Allowance where
  /-- Contexts may be missing. -/
  missing : Bool
  /-- What stands in a place may have all the contexts of an expression that is loaded. -/
  loaded : Bool

namespace Allowance

/-- The same, but no context may be missing. -/
def complete (a : Allowance) : Allowance := { a with missing := false }

/-- Whether a node says that it is used as the context demands. -/
def admits (a : Allowance) (c : Context) (k : Kind) (as : Attrs) : Bool :=
  c.receives k &&
    (!k.hasField "ctx" || (get? as "ctx").any (·.isKind c.kind) ||
      a.missing && Value.lacksContext k as)

end Allowance

namespace Value

variable {β : Type} {a : Allowance} {c d : Context} {k : Kind} {as bs : Attrs} {v r : Value}

/-- The tree can stand where the context is demanded. -/
def standsIn : Value → Allowance → Context → Bool :=
  fold
    (fun k as (parts : Parts (Allowance → Context → Bool)) a c =>
      let stands (a : Allowance) (c : Context) := a.admits c k as && k.fieldNames.all fun f =>
        f == "ctx" || (childItemsAt parts f).all fun i =>
          !Context.leafFields.contains f && i.result a (c.inside k f)
      stands a c || a.loaded && stands a.complete .load)
    fun v items _ a c =>
      match v with
      | list _ => items.all (·.result a c)
      | _ => true

/-- A node stands in a context itself, and what it holds stands as it demands. -/
structure StandsAs (a : Allowance) (c : Context) (k : Kind) (as : Attrs) : Prop where
  own : a.admits c k as = true
  children : ∀ f ∈ k.fieldNames, f ≠ "ctx" → ∀ u ∈ childrenAt as f,
    f ∉ Context.leafFields ∧ u.standsIn a (c.inside k f) = true

theorem standsIn_node : (node k as).standsIn a c ↔
    StandsAs a c k as ∨ a.loaded ∧ StandsAs a.complete .load k as := by
  have hiff (a : Allowance) (c : Context) : StandsAs a c k as ↔
      (a.admits c k as && k.fieldNames.all fun f => f == "ctx" ||
        ((childrenAt as f).map fun v => (⟨v, standsIn v⟩ : Item (Allowance → Context → Bool))).all
          fun i => !Context.leafFields.contains f && i.result a (c.inside k f)) := by
    simp only [Bool.and_eq_true, List.all_eq_true, Bool.or_eq_true, beq_iff_eq, List.all_map,
      Function.comp_apply, Bool.not_eq_true', Decidable.or_iff_not_imp_left]
    constructor
    · rintro ⟨hown, hchildren⟩
      refine ⟨hown, fun f hf hne u hu => ?_⟩
      obtain ⟨hleaf, hu⟩ := hchildren f hf hne u hu
      exact ⟨by simpa using hleaf, hu⟩
    · rintro ⟨hown, hchildren⟩
      refine ⟨hown, fun f hf hne u hu => ?_⟩
      obtain ⟨hleaf, hu⟩ := hchildren f hf hne u hu
      exact ⟨by simpa using hleaf, hu⟩
  rw [hiff, hiff, standsIn, fold_node]
  simp only [childItemsAt_foldAttrs, Bool.or_eq_true, Bool.and_eq_true]

theorem standsIn_list {xs : List Value} :
    (list xs).standsIn a c ↔ ∀ x ∈ xs, x.standsIn a c := by
  rw [standsIn, fold_list, foldItems_eq]
  simp only [List.all_map, List.all_eq_true, Function.comp_apply]

theorem standsIn_other (hn : v.isNode = false) (hl : v.isList = false) : v.standsIn a c := by
  cases v with
  | node => cases hn
  | list => cases hl
  | _ => rfl

theorem StandsAs.standsIn (h : StandsAs a c k as) : (node k as).standsIn a c :=
  standsIn_node.mpr (.inl h)

theorem standsIn_of_load (ha : a.loaded) (h : v.standsIn a.complete .load) :
    v.standsIn a c := by
  induction v using walkInduction with
  | node k as _ =>
    have hload : StandsAs a.complete .load k as := by
      rcases standsIn_node.mp h with h | ⟨-, h⟩
      · exact h
      · exact h
    exact standsIn_node.mpr (.inr ⟨ha, hload⟩)
  | rest v hn ih =>
    cases v with
    | node => cases hn
    | list xs => exact standsIn_list.mpr fun x hx => ih x hx (standsIn_list.mp h x hx)
    | _ => exact standsIn_other rfl rfl

theorem exists_standsAs (h : (node k as).standsIn a c) :
    ∃ b d, StandsAs b d k as ∧ (b.missing → a.missing ∧ d = c) ∧
      (∀ v : Value, v.standsIn b d → v.standsIn a c) ∧
        ∀ v : Value, v.standsIn b.complete d → v.standsIn a.complete c := by
  rcases standsIn_node.mp h with h | ⟨ha, h⟩
  · exact ⟨a, c, h, fun hb => ⟨hb, rfl⟩, fun _ hv => hv, fun _ hv => hv⟩
  · exact ⟨a.complete, .load, h, (by cases ·), fun _ hv => standsIn_of_load ha hv,
      fun _ hv => standsIn_of_load (a := a.complete) ha hv⟩

theorem admits_unlabelledAttrs (a : Allowance) (c : Context) (k : Kind) (as : Attrs) :
    a.admits c k (unlabelledAttrs as) = a.admits c k as := by
  have hctx : Attrs.isHidden "ctx" = false := Kind.isHidden_of_mem (k := .name) (by decide)
  have hkind : (fun u : Value => u.unlabelled.isKind c.kind) = fun u => u.isKind c.kind := by
    funext u
    cases u <;> simp [unlabelled, isKind, kind?]
  rw [Allowance.admits, Allowance.admits, lacksContext_unlabelledAttrs, get?_unlabelledAttrs hctx,
    Option.any_map, hkind]

private theorem admits_outlineAttrs (a : Allowance) (c : Context) (k : Kind) (as : Attrs) :
    a.admits c k (outlineAttrs (fun _ => true) k as) = a.admits c k as := by
  unfold Allowance.admits lacksContext
  cases hk : k.hasField "ctx" with
  | false => rfl
  | true =>
    have hf : Field.req "ctx" ∈ k.fields := by
      revert hk
      cases k <;> decide
    rw [get?_outlineAttrs_req hf rfl]
    rcases get? as "ctx" with _ | u
    · rfl
    · cases u with
      | node => simp [outline_node, isKind, kind?]
      | list => simp [outline_list, isKind, kind?]
      | _ => rfl

theorem standsIn_outline (v : Value) :
    (v.outline fun _ => true).standsIn a c = v.standsIn a c := by
  induction v using walkInduction generalizing a c with
  | node k as ih =>
    have hiff (a : Allowance) (c : Context) :
        StandsAs a c k (outlineAttrs (fun _ => true) k as) ↔ StandsAs a c k as := by
      constructor
      · rintro ⟨hown, hchildren⟩
        refine ⟨(admits_outlineAttrs a c k as).symm.trans hown, fun f hf hne u hu => ?_⟩
        have hmem : u.outline (fun _ => true) ∈ childrenAt (outlineAttrs (fun _ => true) k as) f := by
          rw [childrenAt_outlineAttrs hf rfl]
          exact List.mem_map_of_mem hu
        obtain ⟨hleaf, hstands⟩ := hchildren f hf hne _ hmem
        exact ⟨hleaf, (ih u (mem_children.mpr ⟨f, hf, hu⟩)).symm.trans hstands⟩
      · rintro ⟨hown, hchildren⟩
        refine ⟨(admits_outlineAttrs a c k as).trans hown, fun f hf hne u hu => ?_⟩
        rw [childrenAt_outlineAttrs hf rfl] at hu
        obtain ⟨x, hx, rfl⟩ := List.mem_map.mp hu
        obtain ⟨hleaf, hstands⟩ := hchildren f hf hne x hx
        exact ⟨hleaf, (ih x (mem_children.mpr ⟨f, hf, hx⟩)).trans hstands⟩
    rw [outline_node, Bool.eq_iff_iff, standsIn_node, standsIn_node, hiff, hiff]
  | rest v hn ih =>
    cases v with
    | node => cases hn
    | list xs =>
      rw [outline_list, Bool.eq_iff_iff, standsIn_list, standsIn_list, List.forall_mem_map]
      exact forall₂_congr fun u hu => by rw [ih u hu]
    | _ => rw [outline_other rfl rfl]

theorem standsIn_of_outline (h : (r.outline fun _ => true) = v.outline fun _ => true) :
    r.standsIn a c = v.standsIn a c := by
  rw [← standsIn_outline, h, standsIn_outline]

theorem standsIn_unlabelled (v : Value) : v.unlabelled.standsIn a c = v.standsIn a c :=
  standsIn_of_outline (outline_unlabelled v)

theorem standsIn_labelled (v : Value) (n : Nat) : (v.labelled n).1.standsIn a c = v.standsIn a c := by
  rw [← standsIn_unlabelled, unlabelled_labelled, standsIn_unlabelled]

theorem spreads_standsIn : Spreads (standsIn · a c = true) :=
  ⟨standsIn_other rfl rfl, fun _ => standsIn_list⟩

theorem standsIn_of_mem_spliced (h : v.standsIn a c) {y : Value} (hy : y ∈ v.spliced) :
    y.standsIn a c :=
  spreads_standsIn.spliced_iff.mpr h y hy

theorem standsIn_suite {rs : List Value} (h : ∀ r ∈ rs, r.standsIn a c) :
    (suite rs).standsIn a c :=
  spreads_standsIn.suite_iff.mpr h

/-! ## One pass -/

theorem standsAs_of_unlabelledAttrs (h : StandsAs a c k (unlabelledAttrs as)) : StandsAs a c k as := by
  refine ⟨(admits_unlabelledAttrs a c k as).symm.trans h.own, fun f hf hne u hu => ?_⟩
  have hmem : u.unlabelled ∈ childrenAt (unlabelledAttrs as) f := by
    rw [childrenAt_unlabelledAttrs (Kind.isHidden_of_mem hf)]
    exact List.mem_map_of_mem hu
  obtain ⟨hleaf, hstands⟩ := h.children f hf hne _ hmem
  exact ⟨hleaf, (standsIn_unlabelled u).symm.trans hstands⟩

theorem admits_congr (h : get? bs "ctx" = get? as "ctx") :
    a.admits c k bs = a.admits c k as := by
  rw [Allowance.admits, Allowance.admits, lacksContext, lacksContext, h]

theorem kind_of_admits (h : a.admits c k as) (hf : "ctx" ∈ k.fieldNames) {u : Value}
    (hu : get? as "ctx" = some u) (hnone : u.isNone = false) : u.isKind c.kind := by
  have hlacks : lacksContext k as = false := by
    rw [lacksContext, hu]
    cases u with
    | none => cases hnone
    | _ => simp
  have hfield : k.hasField "ctx" := by simpa [Kind.hasField] using hf
  simpa [Allowance.admits, hfield, hlacks, hu] using (Bool.and_eq_true_iff.mp h).2

/-- A node that had its context as demanded still has it after a pass that keeps the kind of what
says so. -/
private theorem admits_of_renews (as : Attrs) {cs : Attrs}
    (hnew : "ctx" ∈ k.fieldNames → Renews (fun u r => r.kind? = u.kind?) (get? as "ctx")
      (get? bs "ctx") (get? cs "ctx"))
    (hown : a.admits c k bs)
    (hsame : "ctx" ∈ k.fieldNames → get? bs "ctx" = (get? as "ctx").map unlabelled ∨
      lacksContext k as = true) :
    a.admits c k cs := by
  by_cases hf : "ctx" ∈ k.fieldNames
  · have hrenews := hnew hf
    replace hsame := hsame hf
    unfold Renews at hrenews
    split at hrenews
    next j ds hold =>
      obtain ⟨r, hr, hget⟩ := hrenews
      have hbs : get? bs "ctx" = some (node j ds).unlabelled := by
        rcases hsame with hsame | hlacks
        · rw [hsame, hold]
          rfl
        · simp [lacksContext, hold] at hlacks
      have hj := kind_of_admits hown hf hbs (by rw [isNone_unlabelled]; rfl)
      have hr' : r.unlabelled.isKind c.kind := by
        cases r with
        | node i es =>
          obtain rfl : i = j := by simpa [kind?] using hr
          simpa [unlabelled, isKind, kind?] using hj
        | _ => cases hr
      have hsome : get? cs "ctx" = some r.unlabelled := by
        rw [hget]
        cases r with
        | node => rfl
        | _ => cases hr
      have hreceives := (Bool.and_eq_true_iff.mp hown).1
      simp [Allowance.admits, hsome, hr', hreceives]
    next xs hold =>
      have hbs : get? bs "ctx" = some (list xs).unlabelled := by
        rcases hsame with hsame | hlacks
        · rw [hsame, hold]
          rfl
        · simp [lacksContext, hold] at hlacks
      have hj := kind_of_admits hown hf hbs (by rw [isNone_unlabelled]; rfl)
      simp [unlabelled, isKind, kind?] at hj
    next => exact (admits_congr hrenews).trans hown
  · have hfield : k.hasField "ctx" = false := by simpa [Kind.hasField] using hf
    have hreceives := (Bool.and_eq_true_iff.mp hown).1
    simp [Allowance.admits, hfield, hreceives]

section

variable {onNode : Kind → Attrs → Parts β → β} {onRest : Value → List (Item β) → List (Item β) → β}
  {visit : String → Item β → Expansion Value}

/-- A pass that starts with the attributes `bs` makes a node that stands, if each visit does and if
what says how the node is used stays of its kind. -/
theorem gives_rebuild_standsAs
    (hvisit : ∀ f ∈ k.fieldNames, f ≠ "ctx" → ∀ u ∈ childrenAt as f, f ∉ Context.leafFields ∧
      Gives (visit f ⟨u, fold onNode onRest u⟩) fun r =>
        r.isPiece = true ∧ r.standsIn a (c.inside k f))
    (hcontext : "ctx" ∈ k.fieldNames → ∀ u ∈ childrenAt as "ctx",
      Gives (visit "ctx" ⟨u, fold onNode onRest u⟩) fun r => r.kind? = u.kind?)
    (hown : a.admits c k bs)
    (hsame : ∀ f ∈ k.fieldNames, get? (unlabelledAttrs bs) f = get? (unlabelledAttrs as) f ∨
      f = "ctx" ∧ lacksContext k as) :
    Gives (rebuild visit k bs (foldAttrs onNode onRest as)) fun r =>
      ∃ cs, r = node k cs ∧ StandsAs a c k cs := by
  have hgives : ∀ f ∈ k.fieldNames, ∀ u ∈ childrenAt as f,
      Gives (visit f ⟨u, fold onNode onRest u⟩) fun r => r.isPiece ∧
        if f = "ctx" then r.kind? = u.kind? else r.standsIn a (c.inside k f) = true := by
    intro f hf u hu
    by_cases hne : f = "ctx"
    · subst hne
      refine (hcontext hf u hu).mono fun r hr => ⟨?_, by simpa using hr⟩
      have hn := (mem_childrenAt.mp hu).1
      cases u with
      | node =>
        cases r with
        | node => rfl
        | _ => cases hr
      | _ => cases hn
    · refine (hvisit f hf hne u hu).2.mono fun r hr => ⟨hr.1, ?_⟩
      simpa [hne] using hr.2
  refine (gives_rebuild (R := fun f u r => if f = "ctx" then r.kind? = u.kind?
    else r.standsIn a (c.inside k f) = true) hgives bs).mono ?_
  rintro r ⟨cs, rfl, hfields, -⟩
  refine ⟨cs, rfl, standsAs_of_unlabelledAttrs ⟨?_, fun f hf hne w hw => ?_⟩⟩
  · refine admits_of_renews as (fun hf => by simpa using hfields "ctx" hf)
      ((admits_unlabelledAttrs a c k bs).trans hown) fun hf => ?_
    rcases hsame "ctx" hf with hsame | ⟨-, hlacks⟩
    · rw [hsame, get?_unlabelledAttrs (Kind.isHidden_of_mem hf)]
      exact .inl rfl
    · exact .inr hlacks
  · have hrenews := hfields f hf
    simp only [if_neg hne] at hrenews
    rcases mem_childrenAt_of_renews hrenews hw with ⟨u, hu, r, hr, y, hy, rfl⟩ | ⟨hold, hnew⟩
    · refine ⟨(hvisit f hf hne u hu).1, ?_⟩
      rw [standsIn_unlabelled]
      exact standsIn_of_mem_spliced hr hy
    · -- Nothing was visited here, so there is no child.
      have hstart : get? (unlabelledAttrs cs) f = (get? as f).map unlabelled := by
        rw [← get?_unlabelledAttrs (Kind.isHidden_of_mem hf)]
        rcases hsame f hf with hsame | ⟨hctx, -⟩
        · exact hnew.trans hsame
        · exact absurd hctx hne
      have hnil : childrenAt (unlabelledAttrs cs) f = [] := by
        rw [childrenAt, hstart]
        cases hu : get? as f with
        | none => rfl
        | some u =>
          obtain ⟨hn, hl⟩ := hold u hu
          cases u with
          | node => cases hn
          | list => cases hl
          | _ => rfl
      rw [hnil] at hw
      cases hw

end

/-! ## Filling in, and removing markers -/

theorem StandsAs.exists_context (h : StandsAs a c k as) (hf : "ctx" ∈ k.fieldNames) {u : Value}
    (hu : u ∈ childrenAt as "ctx") : ∃ ds, u = node c.kind ds := by
  obtain ⟨hn, hget | ⟨xs, hget, -⟩⟩ := mem_childrenAt.mp hu
  · refine exists_of_isKind (kind_of_admits h.own hf hget ?_)
    cases u with
    | node => rfl
    | _ => cases hn
  · have hlist := kind_of_admits h.own hf hget rfl
    simp [isKind, kind?] at hlist

theorem gives_fixLocations_standsIn (reference : Value) (hv : v.standsIn a c) :
    Gives (fixLocations .reference reference v : Expansion Value) (·.standsIn a c = true) := by
  unfold fixLocations
  split
  · refine (gives_place_sited _ _ v).mono fun r hr => ?_
    have hsame := standsIn_of_outline (a := a) (c := c) hr.2.outline
    rwa [standsIn_unlabelled, standsIn_unlabelled, hv] at hsame
  · exact ensures_pure hv

/-- A node that lacks its context is admitted once it has been filled in; one that has it is admitted
as before. -/
private theorem admits_of_fillContext {b : Allowance} {e : Context} (hd : StandsAs b d k as)
    (he : b.missing → e = d)
    (hbs : lacksContext k as = false ∧ unlabelledAttrs bs = unlabelledAttrs as ∨
      lacksContext k as = true ∧ "ctx" ∈ k.fieldNames ∧
        unlabelledAttrs bs = Attrs.set (unlabelledAttrs as) "ctx" e.node) :
    b.complete.admits d k bs := by
  obtain ⟨hreceives, hown⟩ := Bool.and_eq_true_iff.mp hd.own
  rw [← admits_unlabelledAttrs]
  rcases hbs with ⟨hlacks, hbs⟩ | ⟨hlacks, hf, hbs⟩
  · rw [hbs, admits_unlabelledAttrs, Allowance.admits, hreceives]
    rw [hlacks, Bool.and_false, Bool.or_false] at hown
    rw [hown]
    rfl
  · have hfield : k.hasField "ctx" := by simpa [Kind.hasField] using hf
    have hany : (get? as "ctx").any (·.isKind d.kind) = false := by
      unfold lacksContext at hlacks
      cases hget : get? as "ctx" with
      | none => rfl
      | some u =>
        cases u with
        | none => rfl
        | _ => simp [hget] at hlacks
    have hmissing : b.missing := by simpa [hfield, hany, hlacks] using hown
    rw [he hmissing] at hbs
    have hget : get? (Attrs.set (unlabelledAttrs as) "ctx" d.node) "ctx" = some d.node := by
      rw [Attrs.get?_set, if_pos rfl]
    rw [hbs, Allowance.admits, hreceives, hget]
    cases d <;> simp [Context.node, isKind, kind?]

/-- Filling in contexts from a context makes those that are missing as they are demanded there, and
leaves no context missing. Where none is missing, any context will do. -/
theorem gives_placeContexts_standsIn {e : Context} (he : a.missing → e = c)
    (hv : v.standsIn a c) :
    Gives (v.placeContexts e : Expansion Value) fun r =>
      (v.isNode → r.isNode) ∧ r.standsIn a.complete c := by
  induction v using walkInduction generalizing a c e with
  | node k as ih =>
    obtain ⟨b, d, hd, hmissing, -, hup⟩ := exists_standsAs hv
    have hed : b.missing → e = d := by
      intro hb
      obtain ⟨ha, hdc⟩ := hmissing hb
      rw [hdc, he ha]
    rw [placeContexts, fold_node]
    refine gives_of_ite_bind ((gives_fillContext k as e).bind fun bs hbs => ?_)
    dsimp only
    cases (node k bs).requireAttrs ((Context.ofChildren k).map (·.1)) with
    | error e => exact ensures_throw e
    | ok =>
      refine (gives_rebuild_standsAs (fun f hf hne u hu => ?_) (fun hf u hu => ?_)
        (admits_of_fillContext hd hed hbs) fun f hf => ?_).mono ?_
      · obtain ⟨hleaf, hstands⟩ := hd.children f hf hne u hu
        have hmem : u ∈ children k as := mem_children.mpr ⟨f, hf, hu⟩
        have hhanded : b.missing → handedTo k e f = d.inside k f := by
          intro hb
          rw [hed hb]
          exact Context.handedTo_eq_inside (Bool.and_eq_true_iff.mp hd.own).1 hf hleaf
        refine ⟨hleaf, (ih u hmem hhanded hstands).mono fun r hr => ⟨?_, hr.2⟩⟩
        simp [isPiece, hr.1 (isNode_of_mem_children hmem)]
      · obtain ⟨ds, rfl⟩ := hd.exists_context hf hu
        cases d <;> exact ensures_pure rfl
      · rcases hbs with ⟨-, hbs⟩ | ⟨hlacks, -, hbs⟩
        · rw [hbs]
          exact .inl rfl
        · by_cases hne : f = "ctx"
          · exact .inr ⟨hne, hlacks⟩
          · rw [hbs, Attrs.get?_set, if_neg hne]
            exact .inl rfl
      · rintro r ⟨cs, rfl, hcs⟩
        exact ⟨fun _ => rfl, hup _ hcs.standsIn⟩
  | rest v hn ih =>
    cases v with
    | node => cases hn
    | list xs =>
      rw [placeContexts, fold_list, foldItems_eq]
      simp only [List.mapM_map]
      refine (Ensures.mapM fun u hu => ?_).bind fun rs hrs => ensures_pure
        ⟨(by cases ·), standsIn_suite hrs⟩
      exact (ih u hu he (standsIn_list.mp hv u hu)).mono fun r hr => hr.2
    | _ => exact ensures_throw _

/-- Removing markers keeps contexts: what a marker holds has stood where the marker stood. -/
theorem gives_unmarking_standsIn (hv : v.standsIn a c) :
    Gives (unmarking .expanderMarker v : Unmarking Expansion).visit (fun r =>
      (v.isNode → r.isNode) ∧ r.standsIn a c) ∧
    Gives (unmarking .expanderMarker v : Unmarking Expansion).descend fun r =>
      r.isNode = true ∧ r.standsIn a c := by
  refine gives_unmarking_of (P := fun (i : Allowance × Context) u => u.standsIn i.1 i.2)
    (i := (a, c)) (fun _ => spreads_standsIn) (fun i k as h ih => ?_)
    (fun i k as u hk hbody h hu => ?_) hv
  · obtain ⟨b, d, hd, -, hup, -⟩ := exists_standsAs h
    rw [descend_node]
    refine (gives_rebuild_standsAs (fun f hf hne u hu => ?_) (fun hf u hu => ?_) hd.own
      fun f hf => .inl rfl).mono ?_
    · obtain ⟨hleaf, hstands⟩ := hd.children f hf hne u hu
      exact ⟨hleaf, ih u (mem_children.mpr ⟨f, hf, hu⟩) (_, _) hstands⟩
    · obtain ⟨ds, rfl⟩ := hd.exists_context hf hu
      cases d <;> exact ensures_pure rfl
    · rintro r ⟨cs, rfl, hcs⟩
      exact ⟨rfl, hup _ hcs.standsIn⟩
  · obtain ⟨b, d, hd, -, hup, -⟩ := exists_standsAs h
    have hstands := (hd.children "body" hbody (by decide) u hu).2
    rw [Context.inside, if_pos hk] at hstands
    exact ⟨(b, d), hstands, hup⟩

end Value

end TreeMacros
