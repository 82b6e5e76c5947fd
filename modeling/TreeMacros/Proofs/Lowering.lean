import Mathlib.Data.List.Basic
import TreeMacros.Proofs.Passes
import TreeMacros.Quotation.Lower

/-!
# Running lifted code

What lowering makes of the code that lifting produces: constants, displays of containers, and
calls that build nodes.
-/

namespace TreeMacros

open Value hiding none set
open Attrs (get?)

variable {k : Kind} {as bs : Attrs} {vs codes : List Value} {n : String} {v : Value}

namespace Kind

theorem mem_all (k : Kind) : k ∈ all := by cases k <;> decide

theorem ofName?_typeName (hk : k.isMarker = false) : ofName? k.typeName = some k := by
  have hall : all.all (fun k => k.isMarker || ofName? k.typeName == some k) := by
    decide +kernel
  simpa [hk] using List.all_eq_true.mp hall k k.mem_all

theorem dot_notMem_typeName (k : Kind) : '.' ∉ k.typeName.toList := by
  have hall : all.all (fun k => !k.typeName.toList.contains '.') := by decide +kernel
  simpa using List.all_eq_true.mp hall k k.mem_all

theorem notMem_fieldNames (hk : k.located) : ∀ n ∈ locationNames, n ∉ k.fieldNames := by
  revert hk
  cases k <;> decide

end Kind

/-! ## Entries that differ -/

theorem Attrs.set_of_notMem {name : String} (h : name ∉ as.map (·.1)) (v : Value) :
    Attrs.set as name v = as ++ [(name, v)] := by
  induction as with
  | nil => rfl
  | cons a as ih =>
    rw [List.map_cons, List.mem_cons, not_or] at h
    rw [Attrs.set, if_neg (by simpa using Ne.symm h.1), ih h.2]
    rfl

theorem Attrs.foldl_set_of_nodup {ps : Attrs} (h : ((as ++ ps).map (·.1)).Nodup) :
    ps.foldl (fun as p => Attrs.set as p.1 p.2) as = as ++ ps := by
  induction ps generalizing as with
  | nil => simp
  | cons p ps ih =>
    have hp : p.1 ∉ as.map (·.1) := by
      rw [List.map_append, List.map_cons] at h
      exact fun hmem => (List.nodup_append.mp h).2.2 _ hmem _ (by simp) rfl
    rw [List.foldl_cons, Attrs.set_of_notMem hp, ih (by simpa using h)]
    simp

theorem Dictionary.insert_of_forall {es : Dictionary} {key : Value}
    (h : ∀ e ∈ es, e.1.same key = false) (v : Value) : es.insert key v = es ++ [(key, v)] := by
  induction es with
  | nil => rfl
  | cons e es ih =>
    rw [Dictionary.insert, if_neg (by simp [h e (by simp)]), ih fun e he => h e (by simp [he])]
    rfl

/-- No key is the same as an earlier one. -/
abbrev Dictionary.Distinct (es : Dictionary) : Prop :=
  es.Pairwise fun e f => e.1.same f.1 = false

theorem Dictionary.insertAll_of_distinct {es fs : Dictionary} (h : (es ++ fs).Distinct) :
    Dictionary.insertAll es fs = es ++ fs := by
  induction fs generalizing es with
  | nil => simp [Dictionary.insertAll]
  | cons f fs ih =>
    have hf : ∀ e ∈ es, e.1.same f.1 = false := fun e he =>
      (List.pairwise_append.mp h).2.2 e he f (by simp)
    have hstep : Dictionary.insertAll es (f :: fs) =
        Dictionary.insertAll (es.insert f.1 f.2) fs := rfl
    rw [hstep, Dictionary.insert_of_forall hf, ih (by simpa using h)]
    simp

theorem Value.foldl_distinct {seen : List Value}
    (h : (seen ++ vs).Pairwise fun a b => a.same b = false) :
    vs.foldl (fun seen v => if seen.any (·.same v) then seen else seen ++ [v]) seen =
      seen ++ vs := by
  induction vs generalizing seen with
  | nil => simp
  | cons v vs ih =>
    have hv : seen.any (·.same v) = false := by
      rw [List.any_eq_false]
      intro u hu
      simp [(List.pairwise_append.mp h).2.2 u hu v (by simp)]
    rw [List.foldl_cons, hv, if_neg (by simp), ih (by simpa using h)]
    simp

theorem Value.distinct_of_pairwise (h : vs.Pairwise fun a b => a.same b = false) :
    distinct vs = vs :=
  foldl_distinct h

/-! ## Copies of locations -/

namespace Value

theorem copyLocation_of_unlocated {new old : Value}
    (h : (new.isLocated && old.isLocated) = false) : new.copyLocation old = new := by
  rw [copyLocation, h]
  rfl

private theorem foldl_setAttr {j : Kind} (f : String → Option Value) {names : List String}
    (hnames : names.Nodup) (h : ∀ n ∈ names, n ∉ bs.map (·.1)) :
    names.foldl (fun new n =>
        match f n with
        | some v => setAttr new n v
        | .none => new) (node j bs) =
      node j (bs ++ names.filterMap fun n => (f n).map fun v => (n, v)) := by
  induction names generalizing bs with
  | nil => simp
  | cons n names ih =>
    obtain ⟨hn, hnames⟩ := List.nodup_cons.mp hnames
    rw [List.foldl_cons, List.filterMap_cons]
    cases hf : f n with
    | none => exact ih hnames fun m hm => h m (by simp [hm])
    | some v =>
      have hset : setAttr (node j bs) n v = node j (bs ++ [(n, v)]) := by
        rw [setAttr, Attrs.set_of_notMem (h n (by simp))]
      have hfresh : ∀ m ∈ names, m ∉ (bs ++ [(n, v)]).map (·.1) := by
        intro m hm
        have hne : m ≠ n := fun e => hn (e ▸ hm)
        simpa [hne] using h m (by simp [hm])
      simp only [hset, ih hnames hfresh, Option.map_some, List.append_assoc, List.singleton_append]

theorem copyLocation_node {j : Kind} (hj : j.located) (hk : k.located)
    (h : ∀ n ∈ Kind.locationNames, n ∉ bs.map (·.1)) :
    (node j bs).copyLocation (node k as) =
      node j (bs ++ Kind.locationNames.filterMap fun n =>
        ((node k as).copiedAttr? n).map fun v => (n, v)) := by
  rw [copyLocation, isLocated, isLocated, hj, hk]
  exact foldl_setAttr (copiedAttr? (node k as)) (by decide) h

/-- The location attributes as fields: the end of the range need not be set. -/
def locationFields : List Field :=
  [.req "lineno", .req "col_offset", .opt "end_lineno", .opt "end_col_offset"]

def isEndName (n : String) : Bool := n == "end_lineno" || n == "end_col_offset"

/-- The location attributes that are set are numbers. -/
def hasPlainLocation (as : Attrs) : Bool :=
  Kind.locationNames.all fun n =>
    match get? as n with
    | some (int _) | .none => true
    | _ => false

/-- The location attributes that are set are numbers, or say that the range has no end. -/
def hasCopiedLocation (as : Attrs) : Bool :=
  Kind.locationNames.all fun n =>
    match get? as n with
    | some (int _) | .none => true
    | some none => isEndName n
    | _ => false

theorem hasCopiedLocation_of_hasPlainLocation (h : hasPlainLocation as) :
    hasCopiedLocation as := by
  refine List.all_eq_true.mpr fun n hn => ?_
  have hplain := List.all_eq_true.mp h n hn
  cases hget : get? as n with
  | none => rfl
  | some v =>
    rw [hget] at hplain
    cases v with
    | int => rfl
    | _ => cases hplain

private theorem get?_filterMap (f : String → Option Value) (names : List String) (n : String) :
    get? (names.filterMap fun m => (f m).map fun v => (m, v)) n =
      if n ∈ names then f n else .none := by
  induction names with
  | nil => rfl
  | cons m names ih =>
    rw [List.filterMap_cons]
    by_cases hm : n = m
    · subst hm
      cases hf : f n with
      | none => simp [ih, hf]
      | some v => simp [Attrs.get?_cons]
    · cases hf : f m with
      | none => simp [ih, hm]
      | some v => simp [Attrs.get?_cons, ih, hm]

private theorem attr?_location (hn : n ∈ Kind.locationNames) (h : get? as n = .none) :
    (node k as).attr? n = if k.default? n then some none else .none := by
  have hold : n ≠ "n" ∧ n ≠ "s" ∧ n ≠ "value" := by
    refine ⟨?_, ?_, ?_⟩ <;> rintro rfl <;> revert hn <;> decide
  rw [attr?, h]
  all_goals simp [hold]

private theorem copiedAttr?_some {i : Int} (h : get? as n = some (int i)) :
    (node k as).copiedAttr? n = some (int i) := by
  simp only [copiedAttr?, attr?, h]

private theorem copiedAttr?_empty (h : get? as n = some none) :
    (node k as).copiedAttr? n = if isEndName n then some none else .none := by
  simp only [copiedAttr?, attr?, h]
  rfl

private theorem copiedAttr?_none (hn : n ∈ Kind.locationNames) (h : get? as n = .none) :
    (node k as).copiedAttr? n = if k.default? n && isEndName n then some none else .none := by
  rw [copiedAttr?, attr?_location hn h]
  cases k.default? n <;> simp [isEndName]

theorem eq_of_copiedAttr? (hn : n ∈ Kind.locationNames) (has : hasCopiedLocation as)
    (h : (node k as).copiedAttr? n = some v) : v = none ∨ ∃ i, v = int i := by
  have hplain := List.all_eq_true.mp has n hn
  cases hget : get? as n with
  | none =>
    rw [copiedAttr?_none hn hget] at h
    split at h
    · exact .inl (Option.some.inj h).symm
    · cases h
  | some u =>
    rw [hget] at hplain
    cases u with
    | int i =>
      rw [copiedAttr?_some hget] at h
      exact .inr ⟨i, (Option.some.inj h).symm⟩
    | none =>
      have hend : isEndName n := hplain
      rw [copiedAttr?_empty hget, hend] at h
      exact .inl (Option.some.inj h).symm
    | _ => cases hplain

/-- The location attributes that a node has after its location has been copied to and fro. -/
def location (k : Kind) (as : Attrs) : Attrs :=
  if k.located then locationFields.filterMap (field? as) else []

/-- A location survives being copied to a call and from there to a new node. -/
theorem copyLocation_copyLocation {cs : Attrs} (hk : k.located)
    (hbs : ∀ n ∈ Kind.locationNames, n ∉ bs.map (·.1))
    (hcs : ∀ n ∈ Kind.locationNames, n ∉ cs.map (·.1)) (has : hasCopiedLocation as) :
    (node k bs).copyLocation ((node .call cs).copyLocation (node k as)) =
      node k (bs ++ locationFields.filterMap (field? as)) := by
  have hget : ∀ n ∈ Kind.locationNames, get? (cs ++ Kind.locationNames.filterMap fun n =>
      ((node k as).copiedAttr? n).map fun v => (n, v)) n = (node k as).copiedAttr? n := by
    intro n hn
    have hnone : List.lookup n cs = .none := by
      rw [List.lookup_eq_none_iff]
      intro p hp
      simp only [bne_iff_ne, ne_eq]
      rintro rfl
      exact hcs _ hn (List.mem_map_of_mem hp)
    rw [get?, List.lookup_append, hnone, Option.none_or]
    exact (get?_filterMap _ _ n).trans (if_pos hn)
  rw [copyLocation_node rfl hk hcs, copyLocation_node hk rfl hbs]
  congr 2
  have hfields : locationFields = Kind.locationNames.map fun n => ⟨n, isEndName n⟩ := by decide
  rw [hfields, List.filterMap_map]
  have hcall : ∀ n ∈ Kind.locationNames, Kind.call.default? n = isEndName n := by decide
  refine List.filterMap_congr fun n hn => ?_
  have hback := hget n hn
  have hplain := List.all_eq_true.mp has n hn
  cases h : get? as n with
  | none =>
    rw [copiedAttr?_none hn h] at hback
    simp only [Function.comp_apply, field?, h]
    cases hend : isEndName n with
    | true =>
      rw [hend, Bool.and_true] at hback
      cases hdefault : k.default? n with
      | true =>
        rw [hdefault] at hback
        rw [copiedAttr?_empty hback, hend]
        rfl
      | false =>
        rw [hdefault] at hback
        rw [copiedAttr?_none hn hback, hcall n hn, hend]
        rfl
    | false =>
      rw [hend, Bool.and_false] at hback
      rw [copiedAttr?_none hn hback, hend]
      simp
  | some v =>
    rw [h] at hplain
    cases v with
    | int i =>
      rw [copiedAttr?_some h] at hback
      simp only [Function.comp_apply, copiedAttr?_some hback, field?, h, Option.map_some]
    | none =>
      have hend : isEndName n := hplain
      rw [copiedAttr?_empty h, hend] at hback
      simp only [Function.comp_apply, copiedAttr?_empty hback, hend, field?, h, if_true,
        Option.map_some]
    | _ => cases hplain

end Value


namespace Quotation

theorem dottedName_classRef (name : String) :
    dottedName (classRef name) = .ok (".".intercalate ["mcpyrate", "quotes", "ast", name]) := rfl

theorem ofName_classRef (hk : k.isMarker = false) :
    Callee.ofName (".".intercalate ["mcpyrate", "quotes", "ast", k.typeName]) = .ok (.build k) := by
  have hparts : ∀ part ∈ ["mcpyrate", "quotes", "ast", k.typeName].map String.toList,
      '.' ∉ part := by
    simp [k.dot_notMem_typeName]
  have hsplit : ((".".intercalate ["mcpyrate", "quotes", "ast", k.typeName]).toList.splitOn
      '.').map String.ofList = ["mcpyrate", "quotes", "ast", k.typeName] := by
    have hdot : ".".toList = ['.'] := rfl
    rw [String.toList_intercalate, hdot, List.splitOn_intercalate '.' hparts (by simp)]
    simp
  have hstarts : (".".intercalate ["mcpyrate", "quotes", "ast", k.typeName]).startsWith
      "mcpyrate.quotes" := by
    rw [String.startsWith_string_iff]
    exact ⟨".ast.".toList ++ k.typeName.toList, by simp⟩
  rw [Callee.ofName, hstarts, hsplit]
  simp [Kind.ofName?_typeName hk, hk]

section

variable (again : Value → Except Error Value)

theorem lowerWith_list (xs : List Value) :
    lowerWith again (.list xs) = xs.mapM (lowerWith again) >>= fun ys => .ok (.list ys) := by
  rw [lowerWith, fold_list, foldItems_eq, lowerRest]
  simp only [List.mapM_map]
  rfl

section

variable {again} {k : Kind} {as : Attrs} {name : String}

private theorem laterPart_foldAttrs (h : get? as name = some v) :
    laterPart (foldAttrs (lowerNode again) (fun v items _ => lowerRest v items) as)
        (.node k as) name = lowerWith again v := by
  rw [laterPart, attr_of_get? h, lookup_foldAttrs, h]
  rfl

private theorem laterItems_foldAttrs (h : get? as name = some (.list codes)) :
    laterItems (foldAttrs (lowerNode again) (fun v items _ => lowerRest v items) as)
        (.node k as) name =
      .ok (codes.map (fold (lowerNode again) fun v items _ => lowerRest v items)) := by
  rw [laterItems, attr_of_get? h, lookup_foldAttrs, h]
  simp only [Option.map_some, foldPart, foldItems_eq]
  change Except.ok _ = _
  rw [List.map_map]
  rfl

private theorem loweredItems_foldAttrs (h : get? as name = some (.list codes)) :
    loweredItems (foldAttrs (lowerNode again) (fun v items _ => lowerRest v items) as)
        (.node k as) name = codes.mapM (lowerWith again) := by
  rw [loweredItems, laterItems_foldAttrs h]
  change List.mapM _ (codes.map _) = _
  rw [List.mapM_map]
  rfl

end

/-- The kinds of nodes that can be run. -/
def runnable : List Kind := [.constant, .keyword, .list, .tuple, .dict, .set, .call]

theorem lowerWith_of_notMem (hk : k ∉ runnable) (as : Attrs) :
    ∃ e, lowerWith again (.node k as) = .error e := by
  simp only [runnable, List.mem_cons, List.not_mem_nil, or_false, not_or] at hk
  obtain ⟨hconstant, hkeyword, hlist, htuple, hdict, hset, hcall⟩ := hk
  rw [lowerWith, fold_node, lowerNode]
  · cases (node k as).source false with
    | ok text => exact ⟨_, rfl⟩
    | error e => exact ⟨_, rfl⟩
  all_goals assumption

section

variable {as : Attrs} {codes : List Value}

theorem lowerWith_constant (h : get? as "value" = some v) :
    lowerWith again (.node .constant as) = .ok v := by
  rw [lowerWith, fold_node]
  exact attr_of_get? h

theorem lowerWith_keyword {u code : Value} (hu : get? as "arg" = some u)
    (hcode : get? as "value" = some code) : lowerWith again (.node .keyword as) =
      lowerWith again code >>= fun v => .ok (.tuple [u, v]) := by
  rw [lowerWith, fold_node, lowerNode, laterPart_foldAttrs hcode]
  simp only [attr_of_get? hu]
  rfl

theorem lowerWith_listDisplay (h : get? as "elts" = some (.list codes)) :
    lowerWith again (.node .list as) =
      codes.mapM (lowerWith again) >>= fun vs => .ok (.list vs) := by
  rw [lowerWith, fold_node, lowerNode, loweredItems_foldAttrs h]
  rfl

theorem lowerWith_tupleDisplay (h : get? as "elts" = some (.list codes)) :
    lowerWith again (.node .tuple as) =
      codes.mapM (lowerWith again) >>= fun vs => .ok (.tuple vs) := by
  rw [lowerWith, fold_node, lowerNode, loweredItems_foldAttrs h]
  rfl

theorem lowerWith_setDisplay (h : get? as "elts" = some (.list codes)) :
    lowerWith again (.node .set as) =
      codes.mapM (fun code => lowerWith again code >>= asKey) >>= fun vs =>
        .ok (.set (distinct vs)) := by
  rw [lowerWith, fold_node, lowerNode, laterItems_foldAttrs h]
  change (List.mapM (m := Except Error) _ (codes.map _) >>= _ : Except Error Value) = _
  rw [List.mapM_map]
  rfl

theorem lowerWith_dictDisplay {keys values : List Value}
    (hkeys : get? as "keys" = some (.list keys))
    (hvalues : get? as "values" = some (.list values)) :
    lowerWith again (.node .dict as) =
      (keys.zip values).mapM (fun e => do
        let key ← lowerWith again e.1
        let value ← lowerWith again e.2
        return (← key.asKey, value)) >>= fun es => .ok (.dict (Dictionary.insertAll [] es)) := by
  have hrequire : (node .dict as).requireAttrs ["keys", "values"] = .ok () := by
    simp only [requireAttrs, attr_of_get? hkeys, attr_of_get? hvalues]
    rfl
  rw [lowerWith, fold_node, lowerNode, hrequire, laterItems_foldAttrs hkeys,
    laterItems_foldAttrs hvalues]
  change (List.mapM (m := Except Error) _ ((keys.map _).zip (values.map _)) >>= _ :
    Except Error Value) = _
  rw [List.zip_map, List.mapM_map]
  rfl

theorem lowerWith_call {func args keywords : Value} (hfunc : get? as "func" = some func)
    (hargs : get? as "args" = some args)
    (hkeywords : get? as "keywords" = some keywords) :
    lowerWith again (.node .call as) = (do
        let callee ← Callee.ofName (← dottedName func)
        let given ← lowerWith again args
        let named ← keywordsOf (← lowerWith again keywords)
        placeResult (← callWith again callee (← given.elements) named) (.node .call as)) := by
  rw [lowerWith, fold_node, lowerNode, laterPart_foldAttrs hargs,
    laterPart_foldAttrs hkeywords]
  simp only [attr_of_get? hfunc]
  rfl

end

end

/-! ## Building nodes -/

theorem keywordsOf_pairs {ps : List (String × Value)} (h : (ps.map (·.1)).Nodup) :
    keywordsOf (.list (ps.map fun p => .tuple [.str p.1, p.2])) = .ok ps := by
  have helements : (list (ps.map fun p => .tuple [.str p.1, p.2])).elements =
      .ok (ps.map fun p => .tuple [.str p.1, p.2]) := rfl
  have hentries : (ps.map fun p => tuple [.str p.1, p.2]).mapM entryOf =
      .ok (ps.map fun p => (str p.1, p.2)) := by
    rw [List.mapM_map]
    exact except_mapM_of_ok fun p _ => rfl
  have hdistinct : Dictionary.Distinct (ps.map fun p => (str p.1, p.2)) := by
    rw [Dictionary.Distinct, List.pairwise_map]
    refine (List.pairwise_map.mp h).imp fun hne => ?_
    simpa [same] using hne
  have hnamed : (ps.map fun p => (str p.1, p.2)).mapM namedEntry = .ok ps := by
    rw [List.mapM_map]
    exact (except_mapM_of_ok (g := id) fun p _ => rfl).trans (by simp)
  rw [keywordsOf, helements]
  change (List.mapM entryOf _ >>= _) = _
  rw [hentries]
  change List.mapM namedEntry (Dictionary.insertAll [] _) = _
  rw [Dictionary.insertAll_of_distinct hdistinct]
  exact hnamed

/-- A node is built from its fields alone if its kind is neither a marker nor an older literal. -/
theorem construct_fields {ps : List (String × Value)} (hk : k.isMarker = false)
    (hold : k.isConstant → k = .constant) (hps : ∀ p ∈ ps, p.1 ∈ k.fieldNames)
    (h : (ps.map (·.1)).Nodup) : construct k [] ps = .ok (.node k ps) := by
  have hellipsis : (k == .ellipsis) = false := by
    rw [beq_eq_false_iff_ne]
    rintro rfl
    cases hold rfl
  have hkind : (if k.isConstant then .constant else k) = k := by
    split
    next hc => exact (hold hc).symm
    next => rfl
  have hnamed : (ps.map fun p =>
      (if k == .constant && (p.1 == "n" || p.1 == "s") then "value" else p.1, p.2)) = ps := by
    refine (List.map_congr_left fun p hp => ?_).trans (List.map_id ps)
    rw [if_neg]
    · rfl
    · intro hc
      simp only [Bool.and_eq_true, Bool.or_eq_true, beq_iff_eq] at hc
      obtain ⟨rfl, hname⟩ := hc
      have hnone : "n" ∉ Kind.constant.fieldNames ∧ "s" ∉ Kind.constant.fieldNames := by decide
      rcases hname with hname | hname
      · exact hnone.1 (hname ▸ hps p hp)
      · exact hnone.2 (hname ▸ hps p hp)
  have hset : ps.foldl (fun as p => Attrs.set as p.1 p.2) [] = [] ++ ps :=
    Attrs.foldl_set_of_nodup h
  have hpositional : ps.any (fun p => ([] : List String).contains p.1) = false := by simp
  simp only [construct, hellipsis, Bool.false_eq_true, ↓reduceIte, hkind, List.length_nil,
    Nat.not_lt_zero, List.take_zero, List.zip_nil_left, hnamed, hset, List.nil_append, hk,
    Bool.false_and, hpositional]
  rfl

private theorem location_notMem : ∀ n ∈ Kind.locationNames, n ∉ ["func", "args", "keywords"] := by
  decide

theorem exists_buildCall (k : Kind) (as : Attrs) (codes : List (String × Value)) :
    ∃ more, buildCall (.node k as) codes = .node .call
      ([("func", classRef k.typeName), ("args", .list []),
        ("keywords", .list (codes.map fun f => keywordOf f.1 f.2))] ++ more) ∧
      ∀ a ∈ more, k.located ∧ a.1 ∈ Kind.locationNames ∧
        (node k as).copiedAttr? a.1 = some a.2 := by
  cases hk : k.located with
  | true =>
    refine ⟨_, copyLocation_node rfl hk location_notMem, fun a ha => ?_⟩
    obtain ⟨n, hn, ha⟩ := List.mem_filterMap.mp ha
    obtain ⟨v, hv, rfl⟩ := Option.map_eq_some_iff.mp ha
    exact ⟨rfl, hn, hv⟩
  | false =>
    refine ⟨[], ?_, by simp⟩
    rw [List.append_nil]
    exact copyLocation_of_unlocated hk

theorem lowerWith_buildCall (again : Value → Except Error Value) {codes ps : List (String × Value)}
    (hk : k.isMarker = false) (hold : k.isConstant → k = .constant)
    (has : k.located → hasCopiedLocation as) (hps : ∀ p ∈ ps, p.1 ∈ k.fieldNames)
    (hnodup : (ps.map (·.1)).Nodup)
    (hcodes : codes.mapM (fun f => do return (f.1, ← lowerWith again f.2)) = .ok ps) :
    lowerWith again (buildCall (.node k as) codes) =
      .ok (.node k (ps ++ location k as)) := by
  have hkeywords : lowerWith again (.list (codes.map fun f => keywordOf f.1 f.2)) =
      .ok (.list (ps.map fun p => .tuple [.str p.1, p.2])) := by
    have hpair : (lowerWith again ∘ fun f : String × Value => keywordOf f.1 f.2) = fun f =>
        (do return (f.1, ← lowerWith again f.2) : Except Error (String × Value)) >>= fun p =>
          .ok (.tuple [.str p.1, p.2]) := by
      funext f
      rw [Function.comp_apply, keywordOf, lowerWith_keyword again rfl rfl]
      cases lowerWith again f.2 <;> rfl
    rw [lowerWith_list, List.mapM_map, hpair, except_mapM_bind hcodes fun p _ => rfl]
    rfl
  have hplace : (node k ps).copyLocation (buildCall (.node k as) codes) =
      .node k (ps ++ location k as) := by
    rw [location]
    cases hl : k.located with
    | true =>
      refine copyLocation_copyLocation hl (fun n hn hmem => ?_) location_notMem (has hl)
      obtain ⟨p, hp, rfl⟩ := List.mem_map.mp hmem
      exact Kind.notMem_fieldNames hl _ hn (hps p hp)
    | false =>
      rw [copyLocation_of_unlocated (by simp [isLocated, hl])]
      simp
  obtain ⟨more, hmore, -⟩ := exists_buildCall k as codes
  rw [hmore] at hplace ⊢
  rw [lowerWith_call again rfl rfl rfl, dottedName_classRef]
  change (Callee.ofName _ >>= _) = _
  rw [ofName_classRef hk]
  change (lowerWith again (.list (codes.map fun f => keywordOf f.1 f.2)) >>= fun pairs =>
    keywordsOf pairs >>= _) = _
  rw [hkeywords]
  change (keywordsOf (.list (ps.map fun p => .tuple [.str p.1, p.2])) >>= _) = _
  rw [keywordsOf_pairs hnodup]
  change (construct k [] ps >>= _) = _
  rw [construct_fields hk hold hps hnodup]
  exact congrArg Except.ok hplace

end Quotation

end TreeMacros
