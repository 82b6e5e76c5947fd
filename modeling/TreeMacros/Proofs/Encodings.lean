import TreeMacros.Proofs.Placement
import TreeMacros.Proofs.RoundTrip
import TreeMacros.Proofs.Transparency

/-!
# Encodings

The code for a value that can be restored, as it is after its contexts and locations have been
filled in. Lowering does not look at either, so that such code still gives the value back, but for
the locations in it. An encoding can be lifted in its turn.
-/

namespace TreeMacros

open Value hiding none set
open Attrs (get? mem_of_get?)

variable {k : Kind} {codes : List Value} {as : Attrs} {v : Value}

namespace Value

/-! ## Values without locations -/

/-- The value with nothing left of its nodes but the fields that are `shown`, wherever the nodes are
held. -/
def stripped (shown : String → Bool) : Value → Value :=
  fold
    (fun k _ parts => node k (k.fields.filterMap fun f =>
      if shown f.name then
        match parts.lookup f.name with
        | some p => some (f.name, p.result)
        | .none => if f.optional then some (f.name, none) else .none
      else .none))
    fun v items entries =>
      match v with
      | list _ => list (items.map (·.result))
      | tuple _ => tuple (items.map (·.result))
      | set _ => set (items.map (·.result))
      | dict _ => dict ((items.map (·.result)).zip (entries.map (·.result)))
      | v => v

/-- What a value says, wherever it stands. -/
def bare (v : Value) : Value := v.stripped fun _ => true

/-- What code does: neither its locations nor its contexts count. -/
def plan (v : Value) : Value := v.stripped (· != "ctx")

section

variable {shown shown' : String → Bool} {k : Kind} {as bs : Attrs} {u v : Value}

def strippedAt (shown : String → Bool) (as : Attrs) (f : Field) : Option Value :=
  if shown f.name then (field? as f).map fun a => a.2.stripped shown else .none

def strippedAttrs (shown : String → Bool) (k : Kind) (as : Attrs) : Attrs :=
  k.fields.filterMap fun f => (strippedAt shown as f).map fun v => (f.name, v)

theorem stripped_node (k : Kind) (as : Attrs) :
    (node k as).stripped shown = node k (strippedAttrs shown k as) := by
  rw [stripped, fold_node, strippedAttrs]
  congr 2
  funext f
  rw [lookup_foldAttrs, strippedAt, field?]
  cases shown f.name with
  | false => rfl
  | true =>
    cases get? as f.name with
    | some v => rfl
    | none => cases f.optional <;> rfl

theorem stripped_list (xs : List Value) :
    (list xs).stripped shown = list (xs.map (stripped shown)) := by
  rw [stripped, fold_list, foldItems_eq, List.map_map]
  rfl

theorem stripped_tuple (xs : List Value) :
    (tuple xs).stripped shown = tuple (xs.map (stripped shown)) := by
  rw [stripped, fold_tuple, foldItems_eq, List.map_map]
  rfl

theorem stripped_set (xs : List Value) :
    (set xs).stripped shown = set (xs.map (stripped shown)) := by
  rw [stripped, fold_set, foldItems_eq, List.map_map]
  rfl

theorem stripped_dict (es : List (Value × Value)) : (dict es).stripped shown =
    dict (es.map fun e => (e.1.stripped shown, e.2.stripped shown)) := by
  rw [stripped, fold_dict, foldKeys_eq, foldValues_eq, List.map_map, List.map_map, List.zip_map']
  rfl

theorem reshapes_stripped (shown : String → Bool) : Reshapes (stripped shown) where
  node k as := ⟨_, stripped_node k as⟩
  list := stripped_list
  tuple := stripped_tuple
  set := stripped_set
  dict := stripped_dict
  leaf v h := by
    cases v with
    | node | list | tuple | set | dict => cases h
    | _ => rfl

theorem get?_strippedAttrs {f : Field} (hf : f ∈ k.fields) :
    get? (strippedAttrs shown k as) f.name = strippedAt shown as f :=
  get?_filterMap_of_mem k.fieldNames_nodup hf

theorem stripped_node_eq_iff : (node k as).stripped shown = (node k bs).stripped shown ↔
    ∀ f ∈ k.fields, strippedAt shown as f = strippedAt shown bs f := by
  rw [stripped_node, stripped_node]
  constructor
  · intro h f hf
    have hget := congrArg (get? · f.name) (node.inj h).2
    simpa only [get?_strippedAttrs hf] using hget
  · intro h
    rw [strippedAttrs, strippedAttrs]
    congr 1
    exact List.filterMap_congr fun f hf => by rw [h f hf]

theorem stripped_stripped (h : ∀ name, shown name → shown' name) (v : Value) :
    (v.stripped shown').stripped shown = v.stripped shown := by
  induction v using heldInduction with
  | h v ih =>
    have hitems (xs : List Value) (hheld : ∀ x ∈ xs, x ∈ v.held) :
        (xs.map (stripped shown')).map (stripped shown) = xs.map (stripped shown) := by
      rw [List.map_map]
      exact List.map_congr_left fun x hx => ih x (hheld x hx)
    cases v with
    | node k as =>
      have hnode : (node k as).stripped shown' = node k (strippedAttrs shown' k as) := stripped_node k as
      rw [hnode]
      refine stripped_node_eq_iff.mpr fun f hf => ?_
      have hget : get? (strippedAttrs shown' k as) f.name = _ := get?_strippedAttrs hf
      unfold strippedAt at hget ⊢
      cases hshown : shown f.name with
      | false => rfl
      | true =>
        rw [h _ hshown] at hget
        simp only [field?, ↓reduceIte] at hget ⊢
        rw [hget]
        cases hv : get? as f.name with
        | some u => exact congrArg some (ih u (mem_held_of_get? hv))
        | none => cases f.optional <;> rfl
    | list xs | tuple xs | set xs =>
      simp only [stripped_list, stripped_tuple, stripped_set, hitems xs fun _ hx => hx]
    | dict es =>
      rw [stripped_dict, stripped_dict, stripped_dict, List.map_map]
      refine congrArg dict (List.map_congr_left fun e he => Prod.ext ?_ ?_)
      · exact ih e.1 (List.mem_append_left _ (List.mem_map_of_mem he))
      · exact ih e.2 (List.mem_append_right _ (List.mem_map_of_mem he))
    | _ => rfl

theorem stripped_outline (v : Value) : (v.outline shown).stripped shown = v.stripped shown := by
  induction v using heldInduction with
  | h v ih =>
    cases v with
    | node k as =>
      rw [outline_node]
      refine stripped_node_eq_iff.mpr fun f hf => ?_
      have hget : get? (outlineAttrs shown k as) f.name = _ := get?_outlineAttrs hf
      unfold outlineAt at hget
      unfold strippedAt
      cases hshown : shown f.name with
      | false => rfl
      | true =>
        rw [hshown] at hget
        simp only [field?, ↓reduceIte] at hget ⊢
        rw [hget]
        cases hv : get? as f.name with
        | some u => exact congrArg some (ih u (mem_held_of_get? hv))
        | none => cases f.optional <;> rfl
    | list xs =>
      rw [outline_list, stripped_list, stripped_list, List.map_map]
      exact congrArg list (List.map_congr_left fun x hx => ih x hx)
    | _ => rw [outline_other rfl rfl]

theorem stripped_of_outline (h : u.outline shown = v.outline shown) :
    u.stripped shown = v.stripped shown := by
  rw [← stripped_outline, h, stripped_outline]

theorem plan_of_bare (h : u.bare = v.bare) : u.plan = v.plan := by
  have hplan (v : Value) : v.bare.plan = v.plan := stripped_stripped (fun _ _ => rfl) v
  rw [← hplan, h, hplan]

end

namespace Reshapes

variable {g : Value → Value} (hg : Reshapes g) {k : Kind} {as : Attrs} {u v : Value}
  {xs : List Value}

include hg

theorem eq_of_isLeaf (hv : v.isLeaf) (h : g u = v) : u = v := by
  cases u with
  | node k as =>
    obtain ⟨bs, hbs⟩ := hg.node k as
    rw [← h, hbs] at hv
    cases hv
  | list xs => rw [← h, hg.list] at hv; cases hv
  | tuple xs => rw [← h, hg.tuple] at hv; cases hv
  | set xs => rw [← h, hg.set] at hv; cases hv
  | dict es => rw [← h, hg.dict] at hv; cases hv
  | _ => rw [← h, hg.leaf _ rfl]

theorem exists_of_node (h : g u = g (Value.node k as)) : ∃ bs, u = .node k bs := by
  obtain ⟨bs, hbs⟩ := hg.node k as
  rw [hbs] at h
  cases u with
  | node j cs =>
    obtain ⟨ds, hds⟩ := hg.node j cs
    rw [hds] at h
    cases h
    exact ⟨cs, rfl⟩
  | list xs => rw [hg.list] at h; cases h
  | tuple xs => rw [hg.tuple] at h; cases h
  | set xs => rw [hg.set] at h; cases h
  | dict es => rw [hg.dict] at h; cases h
  | _ => rw [hg.leaf _ rfl] at h; cases h

theorem exists_of_list (h : g u = g (Value.list xs)) :
    ∃ ys, u = .list ys ∧ ys.map g = xs.map g := by
  rw [hg.list] at h
  cases u with
  | node j cs =>
    obtain ⟨ds, hds⟩ := hg.node j cs
    rw [hds] at h
    cases h
  | list ys =>
    rw [hg.list] at h
    exact ⟨ys, rfl, list.inj h⟩
  | tuple xs => rw [hg.tuple] at h; cases h
  | set xs => rw [hg.set] at h; cases h
  | dict es => rw [hg.dict] at h; cases h
  | _ => rw [hg.leaf _ rfl] at h; cases h

end Reshapes

section

variable {shown : String → Bool} {k : Kind} {as bs : Attrs} {f : Field} {v : Value}

theorem exists_of_stripped (h : (node k bs).stripped shown = (node k as).stripped shown)
    (hf : f ∈ k.fields) (hshown : shown f.name) (hv : get? as f.name = some v)
    (hset : f.optional → v.isText) :
    ∃ u, get? bs f.name = some u ∧ u.stripped shown = v.stripped shown := by
  have hat := stripped_node_eq_iff.mp h f hf
  simp only [strippedAt, hshown, ↓reduceIte, field?, hv] at hat
  cases hget : get? bs f.name with
  | some u => exact ⟨u, rfl, by simpa [hget] using hat⟩
  | none =>
    cases hopt : f.optional with
    | false => simp [hget, hopt] at hat
    | true =>
      obtain ⟨s, rfl⟩ := exists_of_isText (hset hopt)
      simp [hget, hopt] at hat
      cases hat

end

end Value

namespace Quotation

/-! ## Lowering by the plan -/

section

variable {as : Attrs} {u v : Value} {name : String}

theorem dottedParts_name {id : Value} (h : get? as "id" = some id) :
    dottedParts (.node .name as) = .ok [id] := by
  rw [dottedParts, fold_node]
  simp only [attr_of_get? h]
  rfl

theorem dottedParts_attributeRef {attr : Value} (hu : get? as "value" = some u)
    (hn : u.isNode) (hattr : get? as "attr" = some attr) :
    dottedParts (.node .attributeRef as) =
      if u.isKind .attributeRef || u.isKind .name then
        dottedParts u >>= fun names => .ok (names ++ [attr])
      else .error (.report .notOurs none) := by
  rw [dottedParts, fold_node]
  simp only [attr_of_get? hu, attr_of_get? hattr, lookup_foldAttrs, hu]
  cases u with
  | node => rfl
  | _ => cases hn

private theorem exists_of_plan {bs : Attrs} {f : Field} (h : (node k bs).plan = (node k as).plan)
    (hf : f ∈ k.fields) (hname : f.name ≠ "ctx") (hv : get? as f.name = some v)
    (hset : f.optional → v.isText) : ∃ u, get? bs f.name = some u ∧ u.plan = v.plan :=
  exists_of_stripped h hf (by simpa using hname) hv hset

private theorem reshapes_plan : Reshapes plan :=
  reshapes_stripped (· != "ctx")

private theorem eq_of_plan (hv : v.isLeaf) (h : u.plan = v.plan) : u = v :=
  reshapes_plan.eq_of_isLeaf hv (h.trans (reshapes_plan.leaf v hv))

/-- Whatever has the same plan spells the same name. -/
private def Spells (v : Value) : Prop :=
  (v.isKind .attributeRef || v.isKind .name) = true ∧
    ∀ u, u.plan = v.plan → dottedParts u = dottedParts v

private theorem isKind_of_plan (h : u.plan = v.plan) (hv : v.isNode) (k : Kind) :
    u.isKind k = v.isKind k ∧ u.isNode := by
  cases v with
  | node j as =>
    obtain ⟨bs, rfl⟩ := reshapes_plan.exists_of_node h
    exact ⟨rfl, rfl⟩
  | _ => cases hv

private theorem spells_nameRef (id : String) : Spells (nameRef id) := by
  refine ⟨rfl, fun u hu => ?_⟩
  obtain ⟨bs, rfl⟩ := reshapes_plan.exists_of_node hu
  obtain ⟨i, hi, hid⟩ := exists_of_plan (f := .req "id") hu (by decide) (by decide)
    (show _ = some (str id) from rfl) (fun h => by cases h)
  rw [dottedParts_name hi, eq_of_plan rfl hid]
  rfl

private theorem spells_attributeOf (h : Spells v) (name : String) : Spells (attributeOf v name) := by
  obtain ⟨hkind, hspells⟩ := h
  have hn : v.isNode := by
    cases v with
    | node => rfl
    | _ => cases hkind
  refine ⟨rfl, fun u hu => ?_⟩
  obtain ⟨bs, rfl⟩ := reshapes_plan.exists_of_node hu
  obtain ⟨t, ht, htv⟩ := exists_of_plan (f := .req "value") hu (by decide) (by decide)
    (show _ = some v from rfl) (fun h => by cases h)
  obtain ⟨a, ha, hattr⟩ := exists_of_plan (f := .req "attr") hu (by decide) (by decide)
    (show _ = some (str name) from rfl) (fun h => by cases h)
  have htn := (isKind_of_plan htv hn .name).2
  rw [eq_of_plan rfl hattr] at ha
  rw [attributeOf, dottedParts_attributeRef ht htn ha,
    dottedParts_attributeRef (show _ = some v from rfl) hn (show _ = some (str name) from rfl),
    hspells t htv, (isKind_of_plan htv hn _).1, (isKind_of_plan htv hn _).1]

private theorem dottedName_of_plan (h : u.plan = (classRef name).plan) :
    dottedName u = dottedName (classRef name) := by
  have hspells : Spells (classRef name) :=
    spells_attributeOf (spells_attributeOf (spells_attributeOf (spells_nameRef _) _) _) _
  rw [dottedName, dottedName, hspells.2 u h, (isKind_of_plan h rfl _).1]

end

section

variable {α β γ δ ε ζ : Type}

private theorem mapM_of_lifted {lifting : δ → Except Error γ} (run : α → Except Error ζ)
    {p : α → Value} {q : γ → Value} {m : β → ζ} {g : β → ε} {h : δ → ε} {xs : List δ} {cs : List γ}
    {codes : List α} (hcs : xs.mapM lifting = .ok cs) (hcodes : codes.map p = cs.map q)
    (heach : ∀ x ∈ xs, ∀ c, lifting x = .ok c → ∀ code, p code = q c →
      ∃ b, run code = .ok (m b) ∧ g b = h x) :
    ∃ bs : List β, codes.mapM run = .ok (bs.map m) ∧ bs.map g = xs.map h := by
  induction xs generalizing cs codes with
  | nil =>
    cases hcs
    obtain rfl := List.map_eq_nil_iff.mp hcodes
    exact ⟨[], rfl, rfl⟩
  | cons x xs ih =>
    obtain ⟨c, ds, hc, hds, rfl⟩ := exists_of_mapM_cons hcs
    cases codes with
    | nil => cases hcodes
    | cons code codes =>
      obtain ⟨hcode, hcodes⟩ := List.cons.inj hcodes
      obtain ⟨b, hb, hbx⟩ := heach x (by simp) c hc code hcode
      obtain ⟨bs, hbs, hbxs⟩ := ih hds hcodes fun y hy => heach y (by simp [hy])
      refine ⟨b :: bs, ?_, by rw [List.map_cons, List.map_cons, hbx, hbxs]⟩
      rw [List.mapM_cons, hb, hbs]
      rfl

end

/-- Code with the plan of code for the value gives the value, but for locations. -/
def Rebuilds (again : Value → Except Error Value) (v : Value) : Prop :=
  ∀ c code, liftPlain v = .ok c → code.plan = c.plan →
    ∃ r, lowerWith again code = .ok r ∧ r.bare = v.bare

section

variable {again : Value → Except Error Value} {xs : List Value}

private theorem rebuilds_items {cs : List Value} (h : ∀ x ∈ xs, Rebuilds again x)
    (hcs : xs.mapM liftPlain = .ok cs) (hcodes : codes.map plan = cs.map plan) :
    ∃ rs, codes.mapM (lowerWith again) = .ok rs ∧ rs.map bare = xs.map bare := by
  obtain ⟨rs, hrs, hbare⟩ := mapM_of_lifted (lowerWith again) (m := id) (g := bare)
    (h := bare) hcs hcodes fun x hx c hc code hcode => h x hx c code hc hcode
  exact ⟨rs, by simpa using hrs, hbare⟩

private theorem exists_elts (name : String) {code : Value} (hf : Field.req name ∈ k.fields)
    (hname : name ≠ "ctx") (h : code.plan = (node k as).plan)
    (has : get? as name = some (.list codes)) :
    ∃ bs codes', code = .node k bs ∧ get? bs name = some (.list codes') ∧
      codes'.map plan = codes.map plan := by
  obtain ⟨bs, rfl⟩ := reshapes_plan.exists_of_node h
  obtain ⟨u, hu, hplan⟩ := exists_of_plan h hf hname has fun h => by cases h
  obtain ⟨codes', rfl, hcodes⟩ := reshapes_plan.exists_of_list hplan
  exact ⟨bs, codes', rfl, hu, hcodes⟩

private theorem rebuilds_leaf (hv : v.isLeaf) (hlift : liftPlain v = .ok (constantOf v)) :
    Rebuilds again v := by
  intro c code hc hcode
  rw [hlift] at hc
  cases hc
  obtain ⟨bs, rfl⟩ := reshapes_plan.exists_of_node hcode
  obtain ⟨u, hu, hplan⟩ := exists_of_plan (f := .req "value") hcode (by decide) (by decide)
    (show _ = some v from rfl) fun h => by cases h
  refine ⟨v, ?_, rfl⟩
  rw [lowerWith_constant again hu, eq_of_plan hv hplan]

private theorem rebuilds_list (h : ∀ x ∈ xs, Rebuilds again x) : Rebuilds again (.list xs) := by
  intro c code hc hcode
  rw [liftPlain, lift_list] at hc
  obtain ⟨codes, hcodes, hc⟩ := except_bind_eq_ok.mp hc
  cases hc
  obtain ⟨bs, codes', rfl, hget, hplan⟩ := exists_elts "elts" (by decide) (by decide) hcode rfl
  obtain ⟨rs, hrs, hbare⟩ := rebuilds_items h hcodes hplan
  refine ⟨.list rs, ?_, ?_⟩
  · rw [lowerWith_listDisplay again hget, hrs]
    rfl
  · rw [bare, bare, stripped_list, stripped_list]
    exact congrArg list hbare

private theorem rebuilds_tuple (h : ∀ x ∈ xs, Rebuilds again x) : Rebuilds again (.tuple xs) := by
  intro c code hc hcode
  rw [liftPlain, lift_tuple] at hc
  obtain ⟨codes, hcodes, hc⟩ := except_bind_eq_ok.mp hc
  cases hc
  obtain ⟨bs, codes', rfl, hget, hplan⟩ := exists_elts "elts" (by decide) (by decide) hcode rfl
  obtain ⟨rs, hrs, hbare⟩ := rebuilds_items h hcodes hplan
  refine ⟨.tuple rs, ?_, ?_⟩
  · rw [lowerWith_tupleDisplay again hget, hrs]
    rfl
  · rw [bare, bare, stripped_tuple, stripped_tuple]
    exact congrArg tuple hbare

private theorem areKeys_of_bare {rs : List Value} (hkeys : areKeys xs)
    (h : rs.map bare = xs.map bare) : areKeys rs := by
  have hbare : Reshapes bare := reshapes_stripped fun _ => true
  rw [← hbare.areKeys, h, hbare.areKeys, hkeys]

private theorem rebuilds_set (hkeys : areKeys xs) (h : ∀ x ∈ xs, Rebuilds again x) :
    Rebuilds again (.set xs) := by
  intro c code hc hcode
  rw [liftPlain, lift_set] at hc
  obtain ⟨codes, hcodes, hc⟩ := except_bind_eq_ok.mp hc
  cases hc
  obtain ⟨bs, codes', rfl, hget, hplan⟩ := exists_elts "elts" (by decide) (by decide) hcode rfl
  obtain ⟨rs, hrs, hbare⟩ := rebuilds_items h hcodes hplan
  obtain ⟨hhash, hdistinct⟩ := areKeys_iff.mp (areKeys_of_bare hkeys hbare)
  have hasKeys := except_mapM_bind (g := asKey) (h := id) hrs fun v hv =>
    asKey_of_isHashable (hhash v hv)
  refine ⟨.set rs, ?_, ?_⟩
  · rw [lowerWith_setDisplay again hget, hasKeys, List.map_id]
    exact congrArg (fun vs => Except.ok (Value.set vs)) (distinct_of_pairwise hdistinct)
  · rw [bare, bare, stripped_set, stripped_set]
    exact congrArg Value.set hbare

private theorem rebuilds_dict {es : List (Value × Value)}
    (hkeys : areKeys (es.map (·.1))) (h : ∀ e ∈ es, Rebuilds again e.1)
    (h' : ∀ e ∈ es, Rebuilds again e.2) : Rebuilds again (.dict es) := by
  intro c code hc hcode
  rw [liftPlain, lift_dict] at hc
  obtain ⟨keys, hks, hc⟩ := except_bind_eq_ok.mp hc
  obtain ⟨values, hvs, hc⟩ := except_bind_eq_ok.mp hc
  cases hc
  obtain ⟨bs, keys', rfl, hkeysGet, hkeysPlan⟩ :=
    exists_elts "keys" (by decide) (by decide) hcode rfl
  obtain ⟨_, values', hsame, hvaluesGet, hvaluesPlan⟩ :=
    exists_elts "values" (by decide) (by decide) hcode rfl
  cases hsame
  obtain ⟨rs, hrs, hbare⟩ := rebuilds_items (List.forall_mem_map.mpr h) hks hkeysPlan
  obtain ⟨ts, hts, hbare'⟩ := rebuilds_items (List.forall_mem_map.mpr h') hvs hvaluesPlan
  obtain ⟨hhash, hdistinct⟩ := areKeys_iff.mp (areKeys_of_bare hkeys hbare)
  have hlength : rs.length ≤ ts.length := by
    have hr := congrArg List.length hbare
    have ht := congrArg List.length hbare'
    simp only [List.length_map] at hr ht
    omega
  have hdict : Dictionary.Distinct (rs.zip ts) := by
    rw [← List.map_fst_zip hlength, List.pairwise_map] at hdistinct
    exact hdistinct
  refine ⟨.dict (rs.zip ts), ?_, ?_⟩
  · rw [lowerWith_dictDisplay again hkeysGet hvaluesGet, mapM_zip hrs hts hhash]
    exact congrArg (fun es => Except.ok (dict es)) (Dictionary.insertAll_of_distinct hdict)
  · rw [bare, bare, stripped_dict, stripped_dict]
    have hzip := congrArg₂ List.zip hbare hbare'
    rw [List.map_map, List.map_map, List.zip_map', List.zip_map] at hzip
    exact congrArg dict hzip

private theorem bare_of_pairs {more ps : Attrs} (hps : ps.map (fun p => (p.1, p.2.bare)) =
      (node k as).fields.map fun f => (f.1, f.2.bare)) (hmore : ∀ a ∈ more, a.1 ∉ k.fieldNames) :
    (node k (ps ++ more)).bare = (node k as).bare := by
  have hstripped : strippedAttrs (fun _ => true) k as =
      ps.map fun p => (p.1, p.2.bare) := by
    rw [hps, fields, List.map_filterMap, strippedAttrs]
    refine List.filterMap_congr fun f _ => ?_
    rw [strippedAt, if_pos rfl, Option.map_map]
    unfold field?
    cases get? as f.name with
    | some v => rfl
    | none => cases f.optional <;> rfl
  refine stripped_node_eq_iff.mpr fun f hf => ?_
  have hnot : get? more f.name = none := by
    refine List.lookup_eq_none_iff.mpr fun a ha => ?_
    have hne : f.name ≠ a.1 := fun h => hmore a ha (h ▸ List.mem_map_of_mem hf)
    simpa using hne
  have happend : get? (ps ++ more) f.name = get? ps f.name := by
    rw [get?, List.lookup_append, ← get?, ← get?, hnot, Option.or_none]
  have hget : (get? ps f.name).map bare = strippedAt (fun _ => true) as f := by
    rw [← get?_strippedAttrs hf, hstripped]
    clear hps hstripped happend
    induction ps with
    | nil => rfl
    | cons p ps ih =>
      rw [List.map_cons, Attrs.get?_cons, Attrs.get?_cons]
      split
      · rfl
      · exact ih
  rw [← hget, strippedAt, if_pos rfl, field?, happend]
  cases hp : get? ps f.name with
  | some v => rfl
  | none =>
    cases hopt : f.optional with
    | false => rfl
    | true =>
      rw [hp, strippedAt, if_pos rfl, field?, hopt] at hget
      cases hget' : get? as f.name <;> simp [hget'] at hget

section

variable {k : Kind} {bs ps : Attrs} {func : Value} {keywords : List Value}

theorem lowerWith_classCall (again : Value → Except Error Value) (hk : k.isMarker = false)
    (hfunc : get? bs "func" = some func) (hname : func.plan = (classRef k.typeName).plan)
    (hargs : get? bs "args" = some (.list []))
    (hkeywords : get? bs "keywords" = some (.list keywords)) :
    lowerWith again (.node .call bs) = keywords.mapM (lowerWith again) >>= fun us =>
      keywordsOf (.list us) >>= fun named => construct k [] named >>= fun v =>
        placeResult v (.node .call bs) := by
  rw [lowerWith_call again hfunc hargs hkeywords, dottedName_of_plan hname, dottedName_classRef]
  change (Callee.ofName _ >>= _) = _
  rw [ofName_classRef hk]
  change (lowerWith again (.list keywords) >>= fun pairs => keywordsOf pairs >>= _) = _
  rw [lowerWith_list, bind_assoc]
  rfl

theorem exists_lowerWith_classCall (again : Value → Except Error Value) (hk : k.isMarker = false)
    (hold : k.isConstant → k = .constant) (hfunc : get? bs "func" = some func)
    (hname : func.plan = (classRef k.typeName).plan) (hargs : get? bs "args" = some (.list []))
    (hkeywords : get? bs "keywords" = some (.list keywords))
    (hrun : keywords.mapM (lowerWith again) = .ok (ps.map fun p => .tuple [.str p.1, p.2]))
    (hfields : ∀ p ∈ ps, p.1 ∈ k.fieldNames) (hnodup : (ps.map (·.1)).Nodup) :
    ∃ more, lowerWith again (.node .call bs) = .ok (.node k (ps ++ more)) ∧
      ∀ a ∈ more, a.1 ∉ k.fieldNames := by
  obtain ⟨more, hplace, hmore⟩ : ∃ more,
      (node k ps).copyLocation (.node .call bs) = .node k (ps ++ more) ∧
        ∀ a ∈ more, a.1 ∉ k.fieldNames := by
    cases hl : k.located with
    | false =>
      refine ⟨[], ?_, by simp⟩
      rw [List.append_nil, copyLocation_of_unlocated (by simp [isLocated, hl])]
    | true =>
      refine ⟨_, copyLocation_node hl rfl fun n hn hmem => ?_, fun a ha => ?_⟩
      · obtain ⟨p, hp, rfl⟩ := List.mem_map.mp hmem
        exact Kind.notMem_fieldNames hl _ hn (hfields p hp)
      · obtain ⟨n, hn, ha⟩ := List.mem_filterMap.mp ha
        obtain ⟨v, -, rfl⟩ := Option.map_eq_some_iff.mp ha
        exact Kind.notMem_fieldNames hl n hn
  refine ⟨more, ?_, hmore⟩
  rw [lowerWith_classCall again hk hfunc hname hargs hkeywords, hrun]
  change (keywordsOf (.list (ps.map fun p => .tuple [.str p.1, p.2])) >>= _) = _
  rw [keywordsOf_pairs hnodup]
  change (construct k [] ps >>= _) = _
  rw [construct_fields hk hold hfields hnodup]
  exact congrArg Except.ok hplace

end

theorem rebuilds_node (hk : k.isMarker = false) (hold : k.isConstant → k = .constant)
    (h : ∀ f ∈ (node k as).fields, Rebuilds again f.2) : Rebuilds again (.node k as) := by
  intro c code hc hcode
  rw [liftPlain, lift_node _ hk] at hc
  obtain ⟨codes, hcodes, hc⟩ := except_bind_eq_ok.mp hc
  cases hc
  obtain ⟨more, hcall, -⟩ := exists_buildCall k as codes
  rw [hcall] at hcode
  obtain ⟨bs, rfl⟩ := reshapes_plan.exists_of_node hcode
  obtain ⟨func, hfunc, hfuncPlan⟩ := exists_of_plan (f := .req "func") hcode (by decide)
    (by decide) (show _ = some (classRef k.typeName) from rfl) fun h => by cases h
  obtain ⟨_, args, hsame, hargs, hargsPlan⟩ := exists_elts "args" (by decide) (by decide) hcode
    (show _ = some (list []) from rfl)
  cases hsame
  obtain ⟨_, keywords, hsame, hkeywords, hkeywordsPlan⟩ := exists_elts "keywords" (by decide)
    (by decide) hcode (show _ = some (list _) from rfl)
  cases hsame
  obtain rfl := List.map_eq_nil_iff.mp hargsPlan
  rw [List.map_map] at hkeywordsPlan
  obtain ⟨ps, hrun, hps⟩ := mapM_of_lifted (lowerWith again)
    (m := fun p : String × Value => .tuple [.str p.1, p.2]) (g := fun p => (p.1, p.2.bare))
    (h := fun f => (f.1, f.2.bare)) hcodes hkeywordsPlan (fun f hf c hc kw hkw => by
      obtain ⟨code, hcode, hc⟩ := except_bind_eq_ok.mp hc
      cases hc
      obtain ⟨cs, rfl⟩ := reshapes_plan.exists_of_node hkw
      obtain ⟨arg, harg, hargPlan⟩ := exists_of_plan (f := .opt "arg") hkw (by decide) (by decide)
        (show _ = some (str f.1) from rfl) fun _ => rfl
      obtain ⟨value, hvalue, hvaluePlan⟩ := exists_of_plan (f := .req "value") hkw (by decide)
        (by decide) (show _ = some code from rfl) fun h => by cases h
      obtain ⟨r, hr, hbare⟩ := h f hf code value hcode hvaluePlan
      refine ⟨(f.1, r), ?_, by rw [hbare]⟩
      rw [lowerWith_keyword again harg hvalue, hr, eq_of_plan rfl hargPlan]
      rfl)
  have hnames : ps.map (·.1) = (node k as).fields.map (·.1) := by
    have hfst := congrArg (List.map Prod.fst) hps
    simpa [List.map_map, Function.comp_def] using hfst
  have hfields : ∀ p ∈ ps, p.1 ∈ k.fieldNames := fun p hp =>
    (fields_sublist k as).subset (hnames ▸ List.mem_map_of_mem (f := (·.1)) hp)
  have hnodup : (ps.map (·.1)).Nodup :=
    hnames ▸ (fields_sublist k as).nodup k.fieldNames_nodup
  obtain ⟨more', hlower, hmore⟩ := exists_lowerWith_classCall again hk hold hfunc hfuncPlan hargs
    hkeywords hrun hfields hnodup
  exact ⟨_, hlower, bare_of_pairs hps hmore⟩

theorem rebuilds_of_isBuilt (again : Value → Except Error Value) {sited : Attrs → Bool}
    (h : v.isBuilt sited) : Rebuilds again v := by
  refine builtInduction (fun v ha => ?_) (fun k as hk hold _ => rebuilds_node hk hold)
    (fun xs => rebuilds_list) (fun xs => rebuilds_tuple) (fun xs => rebuilds_set)
    (fun es => rebuilds_dict) h
  cases v <;> first | exact rebuilds_leaf rfl rfl | cases ha

end

end Quotation

/-! ## Code for values that can be restored -/

namespace Value

theorem isLeaf_of_isAtom (h : v.isAtom) : v.isLeaf := by
  cases v with
  | node | list | tuple | set | dict => cases h
  | _ => rfl

end Value

namespace Quotation

def isLibraryName : Value → Bool
  | .str s => s == "mcpyrate"
  | _ => false

/-- What can stand in a field of code. -/
inductive Slot where
  | library | text | atom | node | nodes

def Slot.admits : Slot → Value → Bool
  | library => isLibraryName
  | text => isText
  | atom => isAtom
  | node => isNode
  | nodes => isNodes

theorem Slot.admits_cases {p : Slot} (h : p.admits v) :
    v.isAtom ∨ v.isNode ∨ v.isNodes := by
  cases p with
  | library | text =>
    cases v with
    | str => exact .inl rfl
    | _ => cases h
  | atom => exact .inl h
  | node => exact .inr (.inl h)
  | nodes => exact .inr (.inr h)

/-- The fields of the nodes that code is made of. The context is another one. -/
def layout? : Kind → Option (List (String × Slot))
  | .load => some []
  | .name => some [("id", .library)]
  | .attributeRef => some [("value", .node), ("attr", .text)]
  | .constant => some [("value", .atom)]
  | .keyword => some [("arg", .text), ("value", .node)]
  | .list | .tuple | .set => some [("elts", .nodes)]
  | .dict => some [("keys", .nodes), ("values", .nodes)]
  | .call => some [("func", .node), ("args", .nodes), ("keywords", .nodes)]
  | _ => none

/-- A field holds what belongs there. The context is open or that of reading, and all other fields
are empty. -/
def fillsSlot (layout : List (String × Slot)) (as : Attrs) (name : String) : Bool :=
  match layout.lookup name with
  | some p => (get? as name).any p.admits
  | none => (get? as name).all fun v => v.isNone || name == "ctx" && v.isKind .load

def encodesAt (k : Kind) (as : Attrs) : Bool :=
  (layout? k).any fun layout => k.fieldNames.all (fillsSlot layout as)

/-- The location of a node, if it has one, is one that can be copied. -/
def keepsLocation (k : Kind) (as : Attrs) : Bool := !k.located || hasCopiedLocation as

/-- The tree is code that builds a value, and can be lifted in its turn. -/
def isEncoding (v : Value) : Bool :=
  v.isNode && v.throughout (fun _ => true) encodesAt && v.throughout (fun _ => true) keepsLocation

section

variable {k : Kind} {as : Attrs} {v code : Value} {name : String}

theorem isEncoding_iff : isEncoding v ↔ v.isNode ∧
    v.throughout (fun _ => true) encodesAt = true ∧
      v.throughout (fun _ => true) keepsLocation = true := by
  rw [isEncoding, Bool.and_eq_true, Bool.and_eq_true, and_assoc]

theorem isNode_of_isEncoding (h : isEncoding v) : v.isNode :=
  (isEncoding_iff.mp h).1

theorem isEncoding_node : isEncoding (.node k as) ↔
    (encodesAt k as ∧ keepsLocation k as) ∧
      ∀ u ∈ children k as, isEncoding u := by
  simp only [isEncoding_iff, throughout_node, forall_const, isNode, true_and]
  constructor
  · rintro ⟨⟨hat, hfields⟩, hl, hlocations⟩
    exact ⟨⟨hat, hl⟩, fun u hu => ⟨isNode_of_mem_children hu, hfields u hu, hlocations u hu⟩⟩
  · rintro ⟨⟨hat, hl⟩, hchildren⟩
    exact ⟨⟨hat, fun u hu => (hchildren u hu).2.1⟩, hl, fun u hu => (hchildren u hu).2.2⟩

theorem encodesAt_iff : encodesAt k as ↔
    ∃ layout, layout? k = some layout ∧ ∀ f ∈ k.fieldNames, fillsSlot layout as f := by
  rw [encodesAt, Option.any_eq_true]
  simp only [List.all_eq_true]

theorem slot_cases (h : encodesAt k as) (hf : name ∈ k.fieldNames)
    (hv : get? as name = some v) :
    v.isAtom ∨ v.isNode ∨ v.isNodes := by
  obtain ⟨layout, -, hfields⟩ := encodesAt_iff.mp h
  have hat := hfields name hf
  unfold fillsSlot at hat
  rw [hv] at hat
  split at hat
  next p _ => exact Slot.admits_cases hat
  next =>
    rw [Option.all_some, Bool.or_eq_true, Bool.and_eq_true] at hat
    cases v with
    | none => exact .inl rfl
    | node => exact .inr (.inl rfl)
    | _ => rcases hat with hat | ⟨-, hat⟩ <;> cases hat

theorem isRestorable_of_isEncoding (h : isEncoding v) : v.isRestorable := by
  induction v using walkInduction with
  | rest v hn =>
    rw [isNode_of_isEncoding h] at hn
    cases hn
  | node k as ih =>
    obtain ⟨⟨hat, hlocation⟩, hchildren⟩ := isEncoding_node.mp h
    obtain ⟨layout, hlayout, -⟩ := encodesAt_iff.mp hat
    have hkind : k.isMarker = false ∧ (k.isConstant → k = .constant) := by
      revert hlayout
      cases k <;> first | (intro h; cases h; done) | (intro _; decide)
    refine isBuilt_node.mpr ⟨hkind.1, hkind.2, fun hl => ?_, ?_⟩
    · simpa [keepsLocation, hl] using hlocation
    refine (forall_mem_fields (p := fun v => v.isRestorable) rfl).mpr fun f hf u hu => ?_
    have hname : f.name ∈ k.fieldNames := List.mem_map_of_mem hf
    rcases slot_cases hat hname hu with hatom | hn | hns
    · cases u with
      | node | list | tuple | set | dict => cases hatom
      | _ => first | rfl | cases hatom
    · have hmem := mem_children_of_get? hname hu hn
      exact ih u hmem (hchildren u hmem)
    · obtain ⟨xs, rfl, hxs⟩ := exists_of_isNodes hns
      refine isBuilt_list.mpr fun x hx => ?_
      have hmem := mem_children_of_mem hname hu hx (hxs x hx)
      exact ih x hmem (hchildren x hmem)

/-! Lifting makes such code. -/

private theorem isEncoding_of_get? (hk : encodesAt k as) (hl : keepsLocation k as)
    (h : ∀ name v, get? as name = some v →
      (v.isNode → isEncoding v) ∧ ∀ xs, v = .list xs → ∀ u ∈ xs, isEncoding u) :
    isEncoding (.node k as) := by
  refine isEncoding_node.mpr ⟨⟨hk, hl⟩, fun u hu => ?_⟩
  obtain ⟨name, -, hu⟩ := mem_children.mp hu
  obtain ⟨hn, hget | ⟨xs, hget, hmem⟩⟩ := mem_childrenAt.mp hu
  · exact (h name u hget).1 hn
  · exact (h name _ hget).2 xs rfl u hmem

private theorem isNodes_of_isEncoding (h : ∀ code ∈ codes, isEncoding code) :
    (list codes).isNodes :=
  List.all_eq_true.mpr fun code hcode => isNode_of_isEncoding (h code hcode)

private theorem isEncoding_of_isLeaf (hv : v.isLeaf) :
    (v.isNode → isEncoding v) ∧
      ∀ xs, v = .list xs → ∀ u ∈ xs, isEncoding u := by
  cases v with
  | node | list => cases hv
  | _ => exact ⟨fun h => (by cases h), fun xs h => (by cases h)⟩

private theorem isEncoding_of_isList (h : ∀ code ∈ codes, isEncoding code) :
    ((list codes).isNode → isEncoding (.list codes)) ∧
      ∀ xs, list codes = .list xs → ∀ u ∈ xs, isEncoding u := by
  refine ⟨fun h => (by cases h), ?_⟩
  rintro xs ⟨⟩
  exact h

private theorem isEncoding_of_isNode (h : isEncoding v) :
    (v.isNode → isEncoding v) ∧
      ∀ xs, v = .list xs → ∀ u ∈ xs, isEncoding u := by
  refine ⟨fun _ => h, ?_⟩
  rintro xs rfl
  cases isNode_of_isEncoding h

theorem isEncoding_constantOf (h : v.isAtom) : isEncoding (constantOf v) := by
  refine isEncoding_of_get? ?_ rfl fun name u hu => ?_
  · refine encodesAt_iff.mpr ⟨_, rfl, ?_⟩
    change ∀ f ∈ ["value", "kind"], _
    exact List.forall_mem_cons.mpr ⟨h, List.forall_mem_singleton.mpr rfl⟩
  · cases List.mem_singleton.mp (mem_of_get? hu)
    exact isEncoding_of_isLeaf (isLeaf_of_isAtom h)

private theorem isEncoding_display (hk : encodesAt k as) (hl : keepsLocation k as)
    (h : ∀ a ∈ as, ∃ codes, a.2 = .list codes ∧ ∀ code ∈ codes, isEncoding code) :
    isEncoding (.node k as) := by
  refine isEncoding_of_get? hk hl fun name u hu => ?_
  obtain ⟨codes, rfl, hcodes⟩ := h _ (mem_of_get? hu)
  exact isEncoding_of_isList hcodes

private theorem isEncoding_elts (hk : k = .list ∨ k = .tuple ∨ k = .set)
    (h : ∀ code ∈ codes, isEncoding code) :
    isEncoding (.node k [("elts", .list codes)]) := by
  have hnodes := isNodes_of_isEncoding h
  refine isEncoding_display (encodesAt_iff.mpr ?_) ?_ (by simpa using h)
  · rcases hk with rfl | rfl | rfl
    · refine ⟨_, rfl, ?_⟩
      change ∀ f ∈ ["elts", "ctx"], _
      exact List.forall_mem_cons.mpr ⟨hnodes, List.forall_mem_singleton.mpr rfl⟩
    · refine ⟨_, rfl, ?_⟩
      change ∀ f ∈ ["elts", "ctx"], _
      exact List.forall_mem_cons.mpr ⟨hnodes, List.forall_mem_singleton.mpr rfl⟩
    · refine ⟨_, rfl, ?_⟩
      change ∀ f ∈ ["elts"], _
      exact List.forall_mem_singleton.mpr hnodes
  · rcases hk with rfl | rfl | rfl <;> rfl

private theorem isEncoding_dictDisplay {keys values : List Value}
    (hkeys : ∀ code ∈ keys, isEncoding code)
    (hvalues : ∀ code ∈ values, isEncoding code) :
    isEncoding (.node .dict [("keys", .list keys), ("values", .list values)]) := by
  refine isEncoding_display (encodesAt_iff.mpr ⟨_, rfl, ?_⟩) rfl (by simpa using ⟨hkeys, hvalues⟩)
  change ∀ f ∈ ["keys", "values"], _
  exact List.forall_mem_cons.mpr ⟨isNodes_of_isEncoding hkeys,
    List.forall_mem_singleton.mpr (isNodes_of_isEncoding hvalues)⟩

theorem isEncoding_keywordOf (h : isEncoding code) :
    isEncoding (keywordOf name code) := by
  refine isEncoding_of_get? (encodesAt_iff.mpr ⟨_, rfl, ?_⟩) rfl fun field u hu => ?_
  · change ∀ f ∈ ["arg", "value"], _
    exact List.forall_mem_cons.mpr
      ⟨rfl, List.forall_mem_singleton.mpr (isNode_of_isEncoding h)⟩
  · rcases List.mem_cons.mp (mem_of_get? hu) with heq | hu
    · cases heq
      exact isEncoding_of_isLeaf rfl
    · cases List.mem_singleton.mp hu
      exact isEncoding_of_isNode h

theorem isEncoding_classRef (name : String) : isEncoding (classRef name) := rfl

private theorem isEndName_of_copiedAttr? (h : v.copiedAttr? name = some .none) :
    isEndName name := by
  unfold copiedAttr? at h
  split at h
  · split at h
    next hend => exact hend
    next => cases h
  next hnot => exact absurd h (by simpa using hnot)

private theorem hasCopiedLocation_call {func args keywords : Value} {more : Attrs}
    (has : k.located → hasCopiedLocation as)
    (hmore : ∀ a ∈ more, k.located ∧ a.1 ∈ Kind.locationNames ∧
      (node k as).copiedAttr? a.1 = some a.2) :
    hasCopiedLocation
      ([("func", func), ("args", args), ("keywords", keywords)] ++ more) := by
  refine List.all_eq_true.mpr fun n hn => ?_
  cases hget : get? ([("func", func), ("args", args), ("keywords", keywords)] ++ more) n with
  | none => rfl
  | some v =>
    have hmem := mem_of_get? hget
    simp only [List.cons_append, List.nil_append, List.mem_cons, Prod.mk.injEq] at hmem
    rcases hmem with ⟨rfl, -⟩ | ⟨rfl, -⟩ | ⟨rfl, -⟩ | hmem
    · exact absurd hn (by decide)
    · exact absurd hn (by decide)
    · exact absurd hn (by decide)
    · obtain ⟨hk, hname, hcopied⟩ := hmore _ hmem
      rcases eq_of_copiedAttr? hname (has hk) hcopied with hv | ⟨i, hv⟩
      · obtain rfl : v = .none := hv
        exact isEndName_of_copiedAttr? hcopied
      · obtain rfl : v = .int i := hv
        rfl

theorem isEncoding_buildCall {codes : List (String × Value)}
    (has : k.located → hasCopiedLocation as)
    (h : ∀ f ∈ codes, isEncoding f.2) :
    isEncoding (buildCall (.node k as) codes) := by
  obtain ⟨more, hcall, hmore⟩ := exists_buildCall k as codes
  have hkeywords : ∀ u ∈ codes.map fun f => keywordOf f.1 f.2, isEncoding u := by
    intro u hu
    obtain ⟨f, hf, rfl⟩ := List.mem_map.mp hu
    exact isEncoding_keywordOf (h f hf)
  rw [hcall]
  refine isEncoding_of_get? (encodesAt_iff.mpr ⟨_, rfl, ?_⟩) ?_ fun name u hu => ?_
  · change ∀ f ∈ ["func", "args", "keywords"], _
    exact List.forall_mem_cons.mpr ⟨rfl, List.forall_mem_cons.mpr
      ⟨rfl, List.forall_mem_singleton.mpr (isNodes_of_isEncoding hkeywords)⟩⟩
  · exact hasCopiedLocation_call has hmore
  · have hmem := mem_of_get? hu
    simp only [List.cons_append, List.nil_append, List.mem_cons, Prod.mk.injEq] at hmem
    rcases hmem with ⟨-, rfl⟩ | ⟨-, rfl⟩ | ⟨-, rfl⟩ | hmem
    · exact isEncoding_of_isNode (isEncoding_classRef _)
    · exact isEncoding_of_isList (by simp)
    · exact isEncoding_of_isList hkeywords
    · obtain ⟨hk, hname, hcopied⟩ := hmore _ hmem
      refine isEncoding_of_isLeaf ?_
      rcases eq_of_copiedAttr? hname (has hk) hcopied with hv | ⟨i, hv⟩
      · obtain rfl : u = .none := hv
        rfl
      · obtain rfl : u = .int i := hv
        rfl

private theorem isEncoding_of_mem_mapM {xs : List Value} (hcodes : xs.mapM liftPlain = .ok codes)
    (h : ∀ x ∈ xs, ∀ code, liftPlain x = .ok code → isEncoding code) :
    ∀ code ∈ codes, isEncoding code := by
  intro code hcode
  obtain ⟨x, hx, hlift⟩ := List.mem_map.mp (map_ok_of_mapM hcodes ▸ List.mem_map_of_mem hcode)
  exact h x hx code hlift

theorem isEncoding_of_liftPlain (hv : v.isRestorable) (h : liftPlain v = .ok code) :
    isEncoding code := by
  refine builtInduction (motive := fun v => ∀ code, liftPlain v = .ok code → isEncoding code)
    (fun v ha code h => ?atom) (fun k as hk _ hlocation hfields code h => ?node)
    (fun xs hxs code h => ?list) (fun xs hxs code h => ?tuple) (fun xs _ hxs code h => ?set)
    (fun es _ hkeys hvalues code h => ?dict) hv code h
  case atom =>
    cases v <;> first | (cases h; exact isEncoding_constantOf rfl) | cases ha
  case node =>
    rw [liftPlain, lift_node _ hk] at h
    obtain ⟨codes, hcodes, h⟩ := except_bind_eq_ok.mp h
    cases h
    refine isEncoding_buildCall hlocation fun f hf => ?_
    obtain ⟨g, hg, hlift⟩ := List.mem_map.mp (map_ok_of_mapM hcodes ▸ List.mem_map_of_mem hf)
    obtain ⟨code, hcode, hlift⟩ := except_bind_eq_ok.mp hlift
    cases hlift
    exact hfields g hg code hcode
  case list =>
    rw [liftPlain, lift_list] at h
    obtain ⟨codes, hcodes, h⟩ := except_bind_eq_ok.mp h
    cases h
    exact isEncoding_elts (by simp) (isEncoding_of_mem_mapM hcodes hxs)
  case tuple =>
    rw [liftPlain, lift_tuple] at h
    obtain ⟨codes, hcodes, h⟩ := except_bind_eq_ok.mp h
    cases h
    exact isEncoding_elts (by simp) (isEncoding_of_mem_mapM hcodes hxs)
  case set =>
    rw [liftPlain, lift_set] at h
    obtain ⟨codes, hcodes, h⟩ := except_bind_eq_ok.mp h
    cases h
    exact isEncoding_elts (by simp) (isEncoding_of_mem_mapM hcodes hxs)
  case dict =>
    rw [liftPlain, lift_dict] at h
    obtain ⟨keys, hks, h⟩ := except_bind_eq_ok.mp h
    obtain ⟨values, hvs, h⟩ := except_bind_eq_ok.mp h
    cases h
    exact isEncoding_dictDisplay (isEncoding_of_mem_mapM hks (List.forall_mem_map.mpr hkeys))
      (isEncoding_of_mem_mapM hvs (List.forall_mem_map.mpr hvalues))

end

end Quotation

end TreeMacros
