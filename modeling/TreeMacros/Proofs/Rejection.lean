import TreeMacros.Proofs.Encodings

/-!
# What lowering rejects

Code is run as far as it is made of constants, displays and calls that build nodes. If that is all
there is, the code gives a value, and lifting the value makes the code again. Anything else in it
ends in a type error, as long as it can be shown.
-/

namespace TreeMacros

open Value hiding none set
open Attrs (get?)

variable {codes ts keywords : List Value} {k : Kind} {args ps : Attrs}

namespace Quotation

/-! ## Outcomes -/

/-- There is a result with the property, or a type error. -/
def Decides {α : Type} (P : α → Prop) (r : Except Error α) : Prop :=
  (∃ a, r = .ok a ∧ P a) ∨ ∃ e, r = .error e ∧ e.kind = .typeError

namespace Decides

variable {α β : Type} {P : α → Prop} {Q : β → Prop} {r : Except Error α}

theorem value {a : α} (ha : P a) : Decides P (.ok a) := .inl ⟨a, rfl, ha⟩

theorem bind {f : α → Except Error β} (h : Decides P r) (hf : ∀ a, P a → Decides Q (f a)) :
    Decides Q (r >>= f) := by
  rcases h with ⟨a, rfl, ha⟩ | ⟨e, rfl, he⟩
  · exact hf a ha
  · exact .inr ⟨e, rfl, he⟩

theorem mono {P' : α → Prop} (h : Decides P r) (hP : ∀ a, P a → P' a) : Decides P' r := by
  rcases h with ⟨a, hr, ha⟩ | herror
  · exact .inl ⟨a, hr, hP a ha⟩
  · exact .inr herror

theorem and_eq (h : Decides P r) : Decides (fun a => r = .ok a ∧ P a) r := by
  rcases h with ⟨a, hr, ha⟩ | herror
  · exact .inl ⟨a, hr, hr, ha⟩
  · exact .inr herror

theorem mapM {R : α → β → Prop} {f : α → Except Error β} {xs : List α}
    (h : ∀ x ∈ xs, Decides (R x) (f x)) : Decides (List.Forall₂ R xs) (xs.mapM f) := by
  induction xs with
  | nil => exact value .nil
  | cons x xs ih =>
    rw [List.mapM_cons]
    exact (h x List.mem_cons_self).bind fun y hy =>
      (ih fun z hz => h z (List.mem_cons_of_mem x hz)).bind fun ys hys => value (.cons hy hys)

end Decides

theorem decides_asKey (v : Value) : Decides (fun u => u = v ∧ v.isHashable) v.asKey := by
  unfold asKey
  split
  next h => exact .value ⟨rfl, h⟩
  next => exact .inr ⟨_, rfl, rfl⟩

theorem mapM_of_forall₂ {α β : Type} {f : α → Except Error β} {xs : List α} {ys : List β}
    (h : List.Forall₂ (fun x y => f x = .ok y) xs ys) : xs.mapM f = .ok ys := by
  induction h with
  | nil => rfl
  | cons hx _ ih =>
    rw [List.mapM_cons, hx, ih]
    rfl

theorem forall_mem_of_forall₂ {α β : Type} {P : β → Prop} {xs : List α} {ys : List β}
    (h : List.Forall₂ (fun _ y => P y) xs ys) : ∀ y ∈ ys, P y := by
  induction h with
  | nil => simp
  | cons hy _ ih => exact List.forall_mem_cons.mpr ⟨hy, ih⟩

/-! ## Code and the value that it is for -/

/-- The value is built of what there is code for, and its code is this, but for locations and
contexts. -/
def IsOrigin (code v : Value) : Prop :=
  v.isBuilt (fun _ => true) = true ∧ ∃ t, liftPlain v = .ok t ∧ t.plan = code.plan

theorem liftPlain_origins {vs : List Value} (h : List.Forall₂ IsOrigin codes vs) :
    (∀ v ∈ vs, v.isBuilt (fun _ => true)) ∧
      ∃ ts, vs.mapM liftPlain = .ok ts ∧ ts.map plan = codes.map plan := by
  induction h with
  | nil => exact ⟨by simp, [], rfl, rfl⟩
  | cons hv _ ih =>
    obtain ⟨hbuilt, t, ht, hplan⟩ := hv
    obtain ⟨hall, ts, hts, hplans⟩ := ih
    refine ⟨List.forall_mem_cons.mpr ⟨hbuilt, hall⟩, t :: ts, ?_, by simp [hplan, hplans]⟩
    rw [List.mapM_cons, ht, hts]
    rfl

section

variable {k : Kind} {as bs : Attrs} {f : Field} {u v : Value}

theorem strippedAt_of_plan (hu : get? as f.name = some u) (hv : get? bs f.name = some v)
    (h : u.plan = v.plan) :
    strippedAt (· != "ctx") as f = strippedAt (· != "ctx") bs f := by
  simp only [strippedAt, field?, hu, hv, Option.map_some]
  rw [← plan, ← plan, h]

theorem plan_list (h : ts.map plan = codes.map plan) : (list ts).plan = (list codes).plan := by
  rw [plan, plan, stripped_list, stripped_list]
  exact congrArg list h

theorem plan_display (hk : k = .list ∨ k = .tuple ∨ k = .set)
    (has : get? as "elts" = some (.list codes)) (h : ts.map plan = codes.map plan) :
    (node k [("elts", .list ts)]).plan = (node k as).plan := by
  have hctx : strippedAt (· != "ctx") [("elts", .list ts)] (.req "ctx") =
      strippedAt (· != "ctx") as (.req "ctx") := rfl
  have helts : strippedAt (· != "ctx") [("elts", .list ts)] (.req "elts") =
      strippedAt (· != "ctx") as (.req "elts") := strippedAt_of_plan rfl has (plan_list h)
  refine stripped_node_eq_iff.mpr ?_
  rcases hk with rfl | rfl | rfl
  · exact List.forall_mem_cons.mpr ⟨helts, List.forall_mem_singleton.mpr hctx⟩
  · exact List.forall_mem_cons.mpr ⟨helts, List.forall_mem_singleton.mpr hctx⟩
  · exact List.forall_mem_singleton.mpr helts

end

/-! ## Code that is dealt with fairly -/

/-- A keyword that gives some code for a field. -/
def IsArgument (a : String × Value) (keyword : Value) : Prop :=
  ∃ bs, keyword = .node .keyword bs ∧ get? bs "arg" = some (.str a.1) ∧
    get? bs "value" = some a.2

/-- The constants in the code are such as lifting makes, a set or dictionary has no element twice,
each call builds a node of some class from all its fields in their order, and all else can be shown. -/
inductive Fair : Value → Prop
  | constant {as : Attrs} {v : Value} (hv : get? as "value" = some v) (hatom : v.isAtom = true)
    (hkind : (get? as "kind").all (·.isNone) = true) : Fair (.node .constant as)
  | display {k : Kind} {as : Attrs} {codes : List Value} (hk : k = .list ∨ k = .tuple)
    (has : get? as "elts" = some (.list codes)) (h : ∀ c ∈ codes, Fair c) : Fair (.node k as)
  | set {as : Attrs} {codes : List Value} (has : get? as "elts" = some (.list codes))
    (h : ∀ c ∈ codes, Fair c)
    (hdistinct : ∀ vs, codes.mapM lower = .ok vs → vs.Pairwise fun a b => a.same b = false) :
    Fair (.node .set as)
  | dict {as : Attrs} {es : List (Value × Value)}
    (hkeys : get? as "keys" = some (.list (es.map (·.1))))
    (hvalues : get? as "values" = some (.list (es.map (·.2))))
    (h : ∀ e ∈ es, Fair e.1) (h' : ∀ e ∈ es, Fair e.2)
    (hdistinct : ∀ vs, (es.map (·.1)).mapM lower = .ok vs →
      vs.Pairwise fun a b => a.same b = false) : Fair (.node .dict as)
  | build {k : Kind} {as args : Attrs} {func : Value} {keywords : List Value}
    (hk : k.isMarker = false) (hold : k.isConstant = true → k = .constant)
    (hfunc : get? as "func" = some func) (hname : func.plan = (classRef k.typeName).plan)
    (hargs : get? as "args" = some (.list []))
    (hkeywords : get? as "keywords" = some (.list keywords))
    (hfields : (node k args).fields = args) (harguments : List.Forall₂ IsArgument args keywords)
    (h : ∀ a ∈ args, Fair a.2) : Fair (.node .call as)
  | other {k : Kind} {as : Attrs} {text : String} (hk : k ∉ runnable)
    (hsource : (node k as).source false = .ok text) : Fair (.node k as)

/-! ## Running fair code -/

section

variable {as : Attrs} {codes : List Value}

theorem decides_constant {v : Value} (hv : get? as "value" = some v) (hatom : v.isAtom)
    (hkind : (get? as "kind").all (·.isNone)) :
    Decides (IsOrigin (.node .constant as)) (lower (.node .constant as)) := by
  have hlower : lower (.node .constant as) = .ok v := lowerWith_constant _ hv
  rw [hlower]
  refine .value ⟨?_, constantOf v, ?_, ?_⟩
  · cases v <;> first | rfl | cases hatom
  · cases v <;> first | rfl | cases hatom
  · refine stripped_node_eq_iff.mpr (List.forall_mem_cons.mpr ⟨strippedAt_of_plan rfl hv rfl,
      List.forall_mem_singleton.mpr ?_⟩)
    have hempty : field? as (.opt "kind") = some ("kind", .none) := by
      unfold field?
      cases hget : get? as (Field.opt "kind").name with
      | none => rfl
      | some u =>
        rw [show get? as "kind" = some u from hget] at hkind
        cases u <;> first | rfl | cases hkind
    rw [strippedAt, strippedAt, hempty]
    rfl

theorem decides_display (hk : k = .list ∨ k = .tuple) (has : get? as "elts" = some (.list codes))
    (h : ∀ c ∈ codes, Decides (IsOrigin c) (lower c)) :
    Decides (IsOrigin (.node k as)) (lower (.node k as)) := by
  rcases hk with rfl | rfl
  · have hlower : lower (.node .list as) = codes.mapM lower >>= fun vs => .ok (.list vs) :=
      lowerWith_listDisplay _ has
    rw [hlower]
    refine (Decides.mapM h).bind fun vs hvs => .value ?_
    obtain ⟨hbuilt, ts, hts, hplan⟩ := liftPlain_origins hvs
    refine ⟨isBuilt_list.mpr hbuilt, _, ?_, plan_display (.inl rfl) has hplan⟩
    rw [liftPlain, lift_list]
    exact congrArg (· >>= _) hts
  · have hlower : lower (.node .tuple as) = codes.mapM lower >>= fun vs => .ok (.tuple vs) :=
      lowerWith_tupleDisplay _ has
    rw [hlower]
    refine (Decides.mapM h).bind fun vs hvs => .value ?_
    obtain ⟨hbuilt, ts, hts, hplan⟩ := liftPlain_origins hvs
    refine ⟨isBuilt_tuple.mpr hbuilt, _, ?_, plan_display (.inr (.inl rfl)) has hplan⟩
    rw [liftPlain, lift_tuple]
    exact congrArg (· >>= _) hts

theorem decides_set (has : get? as "elts" = some (.list codes))
    (h : ∀ c ∈ codes, Decides (IsOrigin c) (lower c))
    (hdistinct : ∀ vs, codes.mapM lower = .ok vs → vs.Pairwise fun a b => a.same b = false) :
    Decides (IsOrigin (.node .set as)) (lower (.node .set as)) := by
  have hlower : lower (.node .set as) = codes.mapM (fun c => lower c >>= asKey) >>= fun vs =>
      .ok (.set (distinct vs)) := lowerWith_setDisplay _ has
  have heach : ∀ c ∈ codes, Decides (fun v => lower c = .ok v ∧ v.isHashable ∧ IsOrigin c v)
      (lower c >>= asKey) := by
    intro c hc
    refine ((h c hc).and_eq).bind fun v hv => ?_
    refine (decides_asKey v).mono fun u hu => ?_
    rw [hu.1]
    exact ⟨hv.1, hu.2, hv.2⟩
  rw [hlower]
  refine (Decides.mapM heach).bind fun vs hvs => .value ?_
  have hpairwise := hdistinct vs (mapM_of_forall₂ (hvs.imp fun _ _ h => h.1))
  obtain ⟨hbuilt, ts, hts, hplan⟩ := liftPlain_origins (hvs.imp fun _ _ h => h.2.2)
  have hhash : ∀ v ∈ vs, v.isHashable := forall_mem_of_forall₂ (hvs.imp fun _ _ h => h.2.1)
  rw [distinct_of_pairwise hpairwise]
  refine ⟨isBuilt_set.mpr ⟨areKeys_iff.mpr ⟨hhash, hpairwise⟩, hbuilt⟩, _, ?_,
    plan_display (.inr (.inr rfl)) has hplan⟩
  rw [liftPlain, lift_set]
  exact congrArg (· >>= _) hts

theorem decides_dict {es : List (Value × Value)}
    (hkeys : get? as "keys" = some (.list (es.map (·.1))))
    (hvalues : get? as "values" = some (.list (es.map (·.2))))
    (h : ∀ e ∈ es, Decides (IsOrigin e.1) (lower e.1))
    (h' : ∀ e ∈ es, Decides (IsOrigin e.2) (lower e.2))
    (hdistinct : ∀ vs, (es.map (·.1)).mapM lower = .ok vs →
      vs.Pairwise fun a b => a.same b = false) :
    Decides (IsOrigin (.node .dict as)) (lower (.node .dict as)) := by
  have hlower : lower (.node .dict as) = es.mapM (fun e => do
        let key ← lower e.1
        let value ← lower e.2
        return (← key.asKey, value)) >>= fun fs => .ok (.dict (Dictionary.insertAll [] fs)) := by
    have hzip : (es.map (·.1)).zip (es.map (·.2)) = es := by
      rw [List.zip_map', List.map_id'' fun _ => rfl]
    have hdisplay := lowerWith_dictDisplay (lowerAt 999) hkeys hvalues
    rwa [hzip] at hdisplay
  have heach : ∀ e ∈ es, Decides (fun f : Value × Value => lower e.1 = .ok f.1 ∧
      f.1.isHashable = true ∧ IsOrigin e.1 f.1 ∧ IsOrigin e.2 f.2) (do
        let key ← lower e.1
        let value ← lower e.2
        return (← key.asKey, value)) := by
    intro e he
    refine (h e he).and_eq.bind fun key hkey => (h' e he).bind fun value hvalue =>
      (decides_asKey key).bind fun u hu => .value ?_
    rw [hu.1]
    exact ⟨hkey.1, hu.2, hkey.2, hvalue⟩
  rw [hlower]
  refine (Decides.mapM heach).bind fun fs hfs => .value ?_
  have hrun : List.Forall₂ (fun e f => lower e = .ok f) (es.map (·.1)) (fs.map (·.1)) := by
    rw [List.forall₂_map_left_iff, List.forall₂_map_right_iff]
    exact hfs.imp fun _ _ h => h.1
  have horigin : List.Forall₂ IsOrigin (es.map (·.1)) (fs.map (·.1)) := by
    rw [List.forall₂_map_left_iff, List.forall₂_map_right_iff]
    exact hfs.imp fun _ _ h => h.2.2.1
  have horigin' : List.Forall₂ IsOrigin (es.map (·.2)) (fs.map (·.2)) := by
    rw [List.forall₂_map_left_iff, List.forall₂_map_right_iff]
    exact hfs.imp fun _ _ h => h.2.2.2
  have hpairwise := hdistinct _ (mapM_of_forall₂ hrun)
  have hhash : ∀ v ∈ fs.map (·.1), v.isHashable :=
    List.forall_mem_map.mpr (forall_mem_of_forall₂ (hfs.imp fun _ _ h => h.2.1))
  obtain ⟨hbuilt, ts, hts, hplan⟩ := liftPlain_origins horigin
  obtain ⟨hbuilt', us, hus, hplan'⟩ := liftPlain_origins horigin'
  rw [@Dictionary.insertAll_of_distinct [] fs (List.pairwise_map.mp hpairwise), List.nil_append]
  refine ⟨isBuilt_dict.mpr ⟨areKeys_iff.mpr ⟨hhash, hpairwise⟩,
    List.forall_mem_map.mp hbuilt, List.forall_mem_map.mp hbuilt'⟩,
    .node .dict [("keys", .list ts), ("values", .list us)], ?_, ?_⟩
  · rw [liftPlain, lift_dict]
    change ((fs.map (·.1)).mapM liftPlain >>= fun keys => (fs.map (·.2)).mapM liftPlain >>= _) = _
    rw [hts, hus]
    rfl
  · exact stripped_node_eq_iff.mpr (List.forall_mem_cons.mpr
      ⟨strippedAt_of_plan rfl hkeys (plan_list hplan),
        List.forall_mem_singleton.mpr (strippedAt_of_plan rfl hvalues (plan_list hplan'))⟩)

theorem decides_other {text : String} (hk : k ∉ runnable)
    (hsource : (node k as).source false = .ok text) :
    Decides (IsOrigin (.node k as)) (lower (.node k as)) := by
  simp only [runnable, List.mem_cons, List.not_mem_nil, or_false, not_or] at hk
  obtain ⟨hconstant, hkeyword, hlist, htuple, hdict, hset, hcall⟩ := hk
  refine .inr ⟨.report (.lowerTree text) none, ?_, rfl⟩
  rw [lower, lowerAt, lowerWith, fold_node, lowerNode]
  · rw [hsource]
    rfl
  all_goals assumption

theorem decides_keywords (harguments : List.Forall₂ IsArgument args keywords)
    (h : ∀ a ∈ args, Decides (IsOrigin a.2) (lower a.2)) :
    Decides (fun us => ∃ ps : Attrs, us = ps.map (fun p => .tuple [.str p.1, p.2]) ∧
      List.Forall₂ (fun a p => a.1 = p.1 ∧ IsOrigin a.2 p.2) args ps) (keywords.mapM lower) := by
  induction harguments with
  | nil => exact .value ⟨[], rfl, .nil⟩
  | @cons a keyword args keywords hargument _ ih =>
    obtain ⟨bs, rfl, hname, hcode⟩ := hargument
    obtain ⟨ha, hrest⟩ := List.forall_mem_cons.mp h
    have hlower : lower (.node .keyword bs) = lower a.2 >>= fun v => .ok (.tuple [.str a.1, v]) :=
      lowerWith_keyword _ hname hcode
    rw [List.mapM_cons, hlower, bind_assoc]
    refine ha.bind fun v hv => (ih hrest).bind fun us ⟨ps, hps, hall⟩ => .value ?_
    exact ⟨(a.1, v) :: ps, by rw [hps]; rfl, .cons ⟨rfl, hv⟩ hall⟩

theorem filterMap_field? {as bs : Attrs} {fs : List Field} (hargs : fs.filterMap (field? as) = args)
    (hnames : ps.map (·.1) = args.map (·.1)) (hps : ∀ p ∈ ps, get? bs p.1 = some p.2)
    (hnone : ∀ f ∈ fs, get? as f.name = none → get? bs f.name = none) :
    fs.filterMap (field? bs) = ps := by
  induction fs generalizing args ps with
  | nil =>
    obtain rfl : args = [] := hargs.symm
    exact (List.map_eq_nil_iff.mp hnames).symm
  | cons f fs ih =>
    obtain ⟨hf, hrest⟩ := List.forall_mem_cons.mp hnone
    rw [List.filterMap_cons] at hargs ⊢
    cases hfield : field? as f with
    | none =>
      have hget : get? as f.name = none ∧ f.optional = false := by
        unfold field? at hfield
        split at hfield
        next => cases hfield
        next hget => exact ⟨hget, by simpa using hfield⟩
      have hbs : field? bs f = none := by simp [field?, hf hget.1, hget.2]
      rw [hfield] at hargs
      rw [hbs]
      exact ih hargs hnames hps hrest
    | some a =>
      have ha : a.1 = f.name := by
        unfold field? at hfield
        split at hfield
        next => cases hfield; rfl
        next =>
          split at hfield
          · cases hfield; rfl
          · cases hfield
      rw [hfield] at hargs
      subst hargs
      cases ps with
      | nil => cases hnames
      | cons p ps =>
        obtain ⟨hname, hnames⟩ := List.cons.inj hnames
        obtain ⟨hp, hps⟩ := List.forall_mem_cons.mp hps
        rw [show p.1 = f.name from hname.trans ha] at hp
        have hbs : field? bs f = some p := by
          rw [field?, hp]
          exact congrArg some (Prod.ext (hname.trans ha).symm rfl)
        rw [hbs]
        exact congrArg _ (ih rfl hnames hps hrest)

theorem get?_of_mem (hnodup : (ps.map (·.1)).Nodup) {p : String × Value} (hp : p ∈ ps) :
    get? ps p.1 = some p.2 := by
  induction ps with
  | nil => cases hp
  | cons q ps ih =>
    obtain ⟨hnot, hnodup⟩ := List.nodup_cons.mp hnodup
    rw [Attrs.get?_cons]
    rcases List.mem_cons.mp hp with rfl | hp
    · exact if_pos rfl
    · have hne : p.1 ≠ q.1 := by
        intro h
        exact hnot (List.mem_map.mpr ⟨p, hp, h⟩)
      rw [if_neg hne]
      exact ih hnodup hp

theorem fields_of_names {more : Attrs} (hfields : (node k args).fields = args)
    (hnames : ps.map (·.1) = args.map (·.1)) (hmore : ∀ a ∈ more, a.1 ∉ k.fieldNames) :
    (node k (ps ++ more)).fields = ps := by
  have hsublist := fields_sublist k args
  rw [hfields, ← hnames] at hsublist
  refine filterMap_field? hfields hnames (fun p hp => ?_) fun f hf hget => ?_
  · rw [get?, List.lookup_append, ← get?,
      get?_of_mem (hsublist.nodup k.fieldNames_nodup) hp]
    rfl
  · refine List.lookup_eq_none_iff.mpr fun a ha => ?_
    have hne : f.name ≠ a.1 := by
      rintro hname
      rcases List.mem_append.mp ha with ha | ha
      · have hmem : f.name ∈ args.map (·.1) := by
          rw [← hnames, hname]
          exact List.mem_map_of_mem ha
        obtain ⟨b, hb, hbname⟩ := List.mem_map.mp hmem
        have hnot := List.lookup_eq_none_iff.mp hget b hb
        simp [hbname] at hnot
      · exact hmore a ha (hname ▸ List.mem_map_of_mem hf)
    simpa using hne

theorem liftPlain_fields (h : List.Forall₂ (fun a p => a.1 = p.1 ∧ IsOrigin a.2 p.2) args ps) :
    ∃ codes : Attrs, ps.mapM (fun f => do return (f.1, ← liftPlain f.2)) = .ok codes ∧
      List.Forall₂ (fun a c => c.1 = a.1 ∧ c.2.plan = a.2.plan) args codes := by
  induction h with
  | nil => exact ⟨[], rfl, .nil⟩
  | @cons a p args ps hp _ ih =>
    obtain ⟨hname, -, t, ht, hplan⟩ := hp
    obtain ⟨codes, hcodes, hall⟩ := ih
    refine ⟨(p.1, t) :: codes, ?_, .cons ⟨hname.symm, hplan⟩ hall⟩
    rw [List.mapM_cons, ht, hcodes]
    rfl

theorem plan_keywords {codes : Attrs} (harguments : List.Forall₂ IsArgument args keywords)
    (h : List.Forall₂ (fun a c => c.1 = a.1 ∧ c.2.plan = a.2.plan) args codes) :
    (codes.map fun c => keywordOf c.1 c.2).map plan = keywords.map plan := by
  induction harguments generalizing codes with
  | nil =>
    cases h
    rfl
  | cons hargument _ ih =>
    obtain ⟨bs, rfl, hname, hvalue⟩ := hargument
    cases h with
    | @cons _ c _ _ hc hrest =>
      have harg : get? [("arg", .str c.1), ("value", c.2)] "arg" = some (.str c.1) := rfl
      refine List.cons_eq_cons.mpr ⟨?_, ih hrest⟩
      refine stripped_node_eq_iff.mpr (List.forall_mem_cons.mpr
        ⟨strippedAt_of_plan (f := .opt "arg") harg (hc.1 ▸ hname) rfl,
          List.forall_mem_singleton.mpr (strippedAt_of_plan rfl hvalue hc.2)⟩)

theorem decides_build {func : Value} (hk : k.isMarker = false)
    (hold : k.isConstant → k = .constant) (hfunc : get? as "func" = some func)
    (hname : func.plan = (classRef k.typeName).plan) (hargs : get? as "args" = some (.list []))
    (hkeywords : get? as "keywords" = some (.list keywords)) (hfields : (node k args).fields = args)
    (harguments : List.Forall₂ IsArgument args keywords)
    (h : ∀ a ∈ args, Decides (IsOrigin a.2) (lower a.2)) :
    Decides (IsOrigin (.node .call as)) (lower (.node .call as)) := by
  rcases decides_keywords harguments h with ⟨us, hrun, ps, rfl, hps⟩ | ⟨e, hrun, he⟩
  · have hnames : args.map (·.1) = ps.map (·.1) := by
      rw [← List.forall₂_eq_eq_eq, List.forall₂_map_left_iff, List.forall₂_map_right_iff]
      exact hps.imp fun _ _ h => h.1
    have hsublist := fields_sublist k args
    rw [hfields, hnames] at hsublist
    obtain ⟨more, hlower, hmore⟩ := exists_lowerWith_classCall (lowerAt 999) hk hold hfunc hname hargs
      hkeywords hrun (fun p hp => hsublist.subset (List.mem_map_of_mem hp))
      (hsublist.nodup k.fieldNames_nodup)
    have hown := fields_of_names hfields hnames.symm hmore
    obtain ⟨codes, hcodes, hplans⟩ := liftPlain_fields hps
    obtain ⟨location, hcall, -⟩ := exists_buildCall k (ps ++ more) codes
    rw [show lower (.node .call as) = _ from hlower]
    refine .value ⟨isBuilt_node.mpr ⟨hk, hold, fun _ => rfl, ?_⟩,
      buildCall (.node k (ps ++ more)) codes, ?_, ?_⟩
    · rw [hown]
      exact forall_mem_of_forall₂ (hps.imp fun _ _ h => h.2.1)
    · rw [liftPlain, lift_node _ hk, hown]
      exact congrArg (· >>= _) hcodes
    · rw [hcall]
      refine stripped_node_eq_iff.mpr (List.forall_mem_cons.mpr
        ⟨strippedAt_of_plan rfl hfunc hname.symm, List.forall_mem_cons.mpr
          ⟨strippedAt_of_plan rfl hargs rfl, List.forall_mem_singleton.mpr
            (strippedAt_of_plan rfl hkeywords (plan_list ?_))⟩⟩)
      exact plan_keywords harguments hplans
  · refine .inr ⟨e, ?_, he⟩
    rw [show lower (.node .call as) = _ from
      lowerWith_classCall (lowerAt 999) hk hfunc hname hargs hkeywords, show
        keywords.mapM (lowerWith (lowerAt 999)) = .error e from hrun]
    rfl

end

theorem Fair.decides {code : Value} (h : Fair code) : Decides (IsOrigin code) (lower code) := by
  induction h with
  | constant hv hatom hkind => exact decides_constant hv hatom hkind
  | display hk has _ ih => exact decides_display hk has ih
  | set has _ hdistinct ih => exact decides_set has ih hdistinct
  | dict hkeys hvalues _ _ hdistinct ih ih' => exact decides_dict hkeys hvalues ih ih' hdistinct
  | build hk hold hfunc hname hargs hkeywords hfields harguments _ ih =>
    exact decides_build hk hold hfunc hname hargs hkeywords hfields harguments ih
  | other hk hsource => exact decides_other hk hsource

/-- Fair code that lifting makes gives a value whose code it is, and all other fair code ends in a
type error. -/
theorem lower_of_fair {code : Value} (h : Fair code) :
    ((∃ v, IsOrigin code v) → ∃ v, lower code = .ok v ∧ IsOrigin code v) ∧
      ((¬ ∃ v, IsOrigin code v) → ∃ e, lower code = .error e ∧ e.kind = .typeError) := by
  rcases h.decides with ⟨v, hlower, hv⟩ | ⟨e, hlower, he⟩
  · exact ⟨fun _ => ⟨v, hlower, hv⟩, fun hnone => (hnone ⟨v, hv⟩).elim⟩
  · refine ⟨?_, fun _ => ⟨e, hlower, he⟩⟩
    rintro ⟨v, hbuilt, t, ht, hplan⟩
    obtain ⟨r, hr, -⟩ := rebuilds_of_isBuilt (lowerAt 999) hbuilt t code ht hplan.symm
    cases hlower.symm.trans hr

/-- The code `[mcpyrate.quotes.ast.Return(value=1), "x"]`. -/
private def returnCode : Value :=
  .node .list [("elts", .list
    [callOf (classRef "Return") [] [keywordOf "value" (constantOf (.int 1))], constantOf (.str "x")])]

theorem lower_of_fair_returnCode :
    Fair returnCode ∧ ∃ v, lower returnCode = .ok v ∧ IsOrigin returnCode v := by
  have hreturn : Fair (callOf (classRef "Return") [] [keywordOf "value" (constantOf (.int 1))]) := by
    refine @Fair.build .returnStmt _ [("value", constantOf (.int 1))] _ _ rfl (fun h => by cases h)
      rfl rfl rfl rfl rfl (.cons ⟨_, rfl, rfl, rfl⟩ .nil) ?_
    exact List.forall_mem_singleton.mpr (.constant rfl rfl rfl)
  have hfair : Fair returnCode := by
    refine .display (.inl rfl) rfl (List.forall_mem_cons.mpr ⟨hreturn, ?_⟩)
    exact List.forall_mem_singleton.mpr (.constant rfl rfl rfl)
  exact ⟨hfair, (lower_of_fair hfair).1
    ⟨.list [.node .returnStmt [("value", .int 1)], .str "x"], rfl, _, rfl, rfl⟩⟩

/-- A call of something else is not refused with a type error: neither if it is foreign to the library
nor if the library does not have it. -/
theorem lower_foreignCall :
    errorKind? (lower (callOf (attributeOf (nameRef "os") "system") [] [])) = some .notImplemented ∧
      errorKind? (lower (callOf (libraryRef "nosuch") [] [])) = some .keyError := by
  decide +kernel

end Quotation

end TreeMacros
