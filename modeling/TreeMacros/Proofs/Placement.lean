import TreeMacros.Proofs.Outline

/-!
# Where locations come from

Filling in locations sets the lines and the columns of nodes that have a location, and changes
nothing else. What a node gets is said by the nodes above it, each of the two on its own: a node
that has a line but no column hands down its line, and the column that it was handed itself.
-/

namespace TreeMacros

open Attrs (get? get?_set)

namespace Value

variable {mode : LocationMode} {given : String → Value} {site : List (Kind × Attrs) → String → Value}
  {above : List (Kind × Attrs)} {k : Kind} {as bs : Attrs} {g : Value → Value} {v r : Value}
  {name f : String} {shown : String → Bool}

/-! ## Trees with other locations -/

/-- What has become of the attributes of a node: `site` gives the location, `g` gives the nodes in
the fields, and the rest is as it was. -/
structure Moved (site : String → Value) (g : Value → Value) (k : Kind) (as bs : Attrs) : Prop where
  location : k.located = true → ∀ name ∈ ["lineno", "col_offset"], get? bs name = some (site name)
  fields : ∀ f ∈ k.fieldNames, get? bs f = (get? as f).map (replaced g)
  others : ∀ f, f ∉ k.fieldNames → (k.located = true → f ∉ ["lineno", "col_offset"]) →
    get? bs f = get? as f
  nodes : ∀ u ∈ children k as, (g u).isNode = true

/-- The nodes of `r` are those of `v`, with their locations from `site`. It is shown the node and the
nodes above it, the nearest one first. -/
inductive Sited (site : List (Kind × Attrs) → String → Value) :
    List (Kind × Attrs) → Value → Value → Prop
  | node {above : List (Kind × Attrs)} {k : Kind} {as bs : Attrs} (g : Value → Value)
      (own : Moved (site ((k, as) :: above)) g k as bs)
      (below : ∀ u ∈ children k as, Sited site ((k, as) :: above) u (g u)) :
      Sited site above (node k as) (node k bs)
  | list {above : List (Kind × Attrs)} {xs : List Value} (g : Value → Value)
      (items : ∀ u ∈ xs, Sited site above u (g u)) : Sited site above (list xs) (list (xs.map g))
  | none {above : List (Kind × Attrs)} : Sited site above none none

theorem Moved.children_eq {site : String → Value} (h : Moved site g k as bs) :
    children k bs = (children k as).map g := by
  rw [children, children, List.map_flatMap]
  refine List.flatMap_congr fun f hf => childrenAt_replaced (h.fields f hf) fun u hu => ?_
  exact h.nodes u (mem_children.mpr ⟨f, hf, hu⟩)

theorem Moved.kept {site : String → Value} (h : Moved site g k as bs)
    (hf : k.located → f ∉ ["lineno", "col_offset"]) :
    get? bs f = get? as f ∨ ∀ u, get? bs f = some u → u.isPiece := by
  by_cases hfield : f ∈ k.fieldNames
  · rw [h.fields f hfield]
    cases hget : get? as f with
    | none => exact .inl rfl
    | some u =>
      cases u with
      | node j cs =>
        have hnode := h.nodes _ (mem_children_of_get? hfield hget rfl)
        exact .inr fun w hw => by cases hw; simp [isPiece, replaced, hnode]
      | list xs => exact .inr fun w hw => by cases hw; rfl
      | _ => exact .inl rfl
  · exact .inl (h.others f hfield hf)

theorem Sited.isNode (h : Sited site above v r) : r.isNode = v.isNode := by cases h <;> rfl

theorem Sited.outline (h : Sited site above v r) : r.outline shown = v.outline shown := by
  induction h with
  | node g own _ ih =>
    refine outline_congr fun f hf _ => ?_
    rw [own.fields f hf]
    cases hget : get? _ f with
    | none => rfl
    | some u => exact congrArg some (outline_replaced hget fun w hw =>
        ih w (mem_children.mpr ⟨f, hf, hw⟩))
  | list g _ ih =>
    rw [outline_list, outline_list, List.map_map]
    exact congrArg Value.list (List.map_congr_left ih)
  | none => rfl

/-! ## Sources of locations -/

/-- The attribute of the first node that has it, among those with a location. -/
def nearest (chain : List (Kind × Attrs)) (name : String) : Option Value :=
  chain.findSome? fun n => if n.1.located then get? n.2 name else .none

/-- What a node gets, where `chain` is the node and the nodes above it: always what is given; or what
it has itself; or what the nearest of all these nodes has. -/
def origin (mode : LocationMode) (given : String → Value) (chain : List (Kind × Attrs))
    (name : String) : Value :=
  match mode with
  | .overwrite => given name
  | .reference => (nearest (chain.take 1) name).getD (given name)
  | .update => (nearest chain name).getD (given name)

/-- What the nodes above hand down. -/
def handed (mode : LocationMode) (given : String → Value) (above : List (Kind × Attrs))
    (name : String) : Value :=
  match mode with
  | .update => (nearest above name).getD (given name)
  | _ => given name

theorem origin_reference (hk : k.located) :
    origin .reference given ((k, as) :: above) name = (get? as name).getD (given name) := by
  simp [origin, nearest, hk]

private theorem placeAttr_eq (mode : LocationMode) (given : String → Value)
    (above : List (Kind × Attrs)) (name : String) (hk : k.located) (hbs : get? bs name = get? as name) :
    ∃ cs, placeAttr mode bs name (handed mode given above name) =
        (.ok (cs, handed mode given ((k, as) :: above) name) : Except Error (Attrs × Value)) ∧
      get? cs name = some (origin mode given ((k, as) :: above) name) ∧
        ∀ f, f ≠ name → get? cs f = get? bs f := by
  have hset (v : Value) (f : String) (hf : f ≠ name) : get? (Attrs.set bs name v) f = get? bs f := by
    rw [get?_set, if_neg hf]
  unfold placeAttr
  rw [hbs]
  cases mode with
  | overwrite => exact ⟨_, rfl, by simp [get?_set, origin, handed], hset _⟩
  | reference =>
    cases hget : get? as name with
    | none => exact ⟨_, rfl, by simp [get?_set, origin_reference hk, hget, handed], hset _⟩
    | some v => exact ⟨bs, rfl, by simp [origin_reference hk, hget, hbs], fun _ _ => rfl⟩
  | update =>
    cases hget : get? as name with
    | none =>
      have hup : handed .update given ((k, as) :: above) name = handed .update given above name := by
        simp [handed, nearest, hget]
      rw [hup]
      exact ⟨_, rfl, by simp [get?_set, origin, handed, nearest, hget], hset _⟩
    | some v =>
      have hown : (nearest ((k, as) :: above) name) = some v := by simp [nearest, hk, hget]
      exact ⟨bs, by simp [handed, hown]; rfl, by simp [origin, hown, hbs, hget], fun _ _ => rfl⟩

private theorem placeAttrs_eq (mode : LocationMode) (given : String → Value)
    (above : List (Kind × Attrs)) (k : Kind) (as : Attrs) :
    ∃ bs, placeAttrs mode k as (handed mode given above "lineno")
        (handed mode given above "col_offset") =
        (.ok (bs, handed mode given ((k, as) :: above) "lineno",
          handed mode given ((k, as) :: above) "col_offset") : Except Error (Attrs × Value × Value)) ∧
      (k.located → ∀ name ∈ ["lineno", "col_offset"],
        get? bs name = some (origin mode given ((k, as) :: above) name)) ∧
      ∀ f, (k.located → f ∉ ["lineno", "col_offset"]) → get? bs f = get? as f := by
  unfold placeAttrs
  cases hk : k.located with
  | true =>
    obtain ⟨bs, hline, hgetline, hsame⟩ := placeAttr_eq mode given above "lineno" hk
      (Eq.refl (get? as "lineno"))
    obtain ⟨cs, hcolumn, hgetcolumn, hsame'⟩ := placeAttr_eq mode given above "col_offset" hk
      (hsame "col_offset" (by decide))
    refine ⟨cs, ?_, fun _ => ?_, fun f hf => ?_⟩
    · rw [if_pos rfl, hline]
      change ((placeAttr mode bs "col_offset" _ : Except Error _) >>= _) = _
      rw [hcolumn]
      rfl
    · simp [hgetcolumn, hsame' "lineno" (by decide), hgetline]
    · have hne : f ≠ "lineno" ∧ f ≠ "col_offset" := by simpa using hf rfl
      rw [hsame' f hne.2, hsame f hne.1]
  | false =>
    refine ⟨as, ?_, by simp, fun _ _ => rfl⟩
    have hup (name : String) : handed mode given ((k, as) :: above) name = handed mode given above name := by
      cases mode <;> simp [handed, nearest, hk]
    rw [hup, hup]
    rfl

/-! ## Filling in -/

theorem exists_place (mode : LocationMode) (given : String → Value) (hv : v.isNode)
    (above : List (Kind × Attrs)) :
    ∃ r, v.place mode (handed mode given above "lineno") (handed mode given above "col_offset") =
      (.ok r : Except Error Value) ∧ Sited (origin mode given) above v r := by
  induction v using walkInduction generalizing above with
  | node k as ih =>
    obtain ⟨bs, hplace, hlocation, hothers⟩ := placeAttrs_eq mode given above k as
    choose! g hg using fun u hu => ih u hu (isNode_of_mem_children hu) ((k, as) :: above)
    have hnodes : ∀ u ∈ children k as, (g u).isNode := fun u hu =>
      (hg u hu).2.isNode.trans (isNode_of_mem_children hu)
    have hnot {f : String} (hf : f ∈ k.fieldNames) (hk : k.located) :
        f ∉ ["lineno", "col_offset"] := by
      obtain ⟨hline, hcolumn⟩ := k.location_notMem_fieldNames hk
      simp only [List.mem_cons, List.not_mem_nil, or_false, not_or]
      exact ⟨fun e => hline (e ▸ hf), fun e => hcolumn (e ▸ hf)⟩
    obtain ⟨cs, hrun, hcs⟩ := rebuild_of_isNode (g := fun _ => g)
      (fun _ (r : Value → Value → Except Error Value) => r _ _) bs fun name hname u hu =>
        ⟨(hg u (mem_children.mpr ⟨name, hname, hu⟩)).1, hnodes u (mem_children.mpr ⟨name, hname, hu⟩)⟩
    refine ⟨node k cs, ?_, .node g ⟨fun hk name hname => ?_, fun f hf => ?_, fun f hf hne => ?_, hnodes⟩
      fun u hu => (hg u hu).2⟩
    · rw [place, fold_node, hplace]
      exact hrun
    · rw [hcs.of_notMem fun hf => hnot hf hk hname, hlocation hk name hname]
    · exact hcs.of_mem hf (hothers f (hnot hf))
    · rw [hcs.of_notMem hf, hothers f hne]
  | rest v hn => simp [hn] at hv

def isNodes : Value → Bool
  | list xs => xs.all isNode
  | _ => false

theorem exists_of_isNodes (h : v.isNodes) :
    ∃ xs, v = list xs ∧ ∀ x ∈ xs, x.isNode := by
  cases v with
  | list xs => exact ⟨xs, rfl, List.all_eq_true.mp h⟩
  | _ => cases h

theorem place_of_isNode (mode : LocationMode) (given : String → Value) (hv : v.isNode) :
    ∃ r, v.place mode (given "lineno") (given "col_offset") = (.ok r : Except Error Value) ∧
      Sited (origin mode given) [] v r := by
  have hnil (name : String) : handed mode given [] name = given name := by cases mode <;> rfl
  simpa only [hnil] using exists_place mode given hv []

theorem place_list (mode : LocationMode) (line column : Value) (xs : List Value) :
    (list xs).place mode line column = (do
      return list (← xs.mapM (·.place mode line column)) : Except Error Value) := by
  rw [place, fold_list, foldItems_eq, List.mapM_map]
  rfl

theorem place_of_trees (mode : LocationMode) (given : String → Value)
    (hv : v.isNode ∨ v.isNodes) :
    ∃ r, v.place mode (given "lineno") (given "col_offset") = (.ok r : Except Error Value) ∧
      Sited (origin mode given) [] v r := by
  rcases hv with hn | hns
  · exact place_of_isNode mode given hn
  · obtain ⟨xs, rfl, hxs⟩ := exists_of_isNodes hns
    choose! g hg using fun u hu => place_of_isNode mode given (hxs u hu)
    refine ⟨list (xs.map g), ?_, .list g fun u hu => (hg u hu).2⟩
    rw [place_list, except_mapM_of_ok fun u hu => (hg u hu).1]
    rfl

def placeOf (line column : Value) (name : String) : Value := if name = "lineno" then line else column

theorem sited_of_place {line column : Value}
    (h : v.place mode line column = (.ok r : Except Error Value)) :
    Sited (origin mode (placeOf line column)) [] v r := by
  induction v using walkInduction generalizing r with
  | node k as _ =>
    obtain ⟨s, hs, hsited⟩ := place_of_isNode mode (placeOf line column) (v := node k as) rfl
    cases h.symm.trans (by simpa [placeOf] using hs)
    exact hsited
  | rest v hn ih =>
    cases v with
    | node => cases hn
    | none =>
      cases h
      exact .none
    | list xs =>
      rw [place_list] at h
      obtain ⟨rs, hrs, h⟩ := except_bind_eq_ok.mp h
      cases h
      let g (u : Value) : Value := (u.place (m := Except Error) mode line column).toOption.getD none
      have hok : rs.map .ok = xs.map fun u => (u.place mode line column : Except Error Value) :=
        map_ok_of_mapM hrs
      have hg : ∀ u ∈ xs, u.place mode line column = (.ok (g u) : Except Error Value) := by
        intro u hu
        obtain ⟨s, -, hs⟩ := List.mem_map.mp (hok ▸ List.mem_map_of_mem hu)
        simp [g, ← hs, Except.toOption]
      have hrs : rs = xs.map g := by
        have htake := congrArg (List.map fun e => e.toOption.getD none) hok
        simpa [Function.comp_def, Except.toOption, g] using htake
      rw [hrs]
      exact .list g fun u hu => ih u hu (hg u hu)
    | _ => cases h

theorem outline_fixLocations (shown : String → Bool) (mode : LocationMode) (reference : Value)
    (hv : v.isNode ∨ v.isNodes) :
    ∃ r, fixLocations mode reference v = (.ok r : Except Error Value) ∧ r.isNode = v.isNode ∧
      r.outline shown = v.outline shown := by
  unfold fixLocations
  split
  next line column _ _ =>
    obtain ⟨r, hr, hsited⟩ := place_of_trees mode (placeOf line column) hv
    exact ⟨r, by simpa [placeOf] using hr, hsited.isNode, hsited.outline⟩
  next => exact ⟨v, rfl, rfl, rfl⟩

/-- Filling in from a node with a line and a column changes nothing but the lines and the columns of
nodes that have a location. They come from the reference; or stay, and come from there where they
are missing; or come from the nearest node above that has them, and from the reference if there is
none. -/
theorem fixLocations_sited (mode : LocationMode) {v reference : Value}
    (hv : v.isNode = true ∨ v.isNodes = true)
    (href : ∀ name ∈ ["lineno", "col_offset"], (reference.attr? name).isSome = true) :
    ∃ r, fixLocations mode reference v = (.ok r : Except Error Value) ∧
      Sited (origin mode fun name => (reference.attr? name).getD none) [] v r := by
  obtain ⟨line, hline⟩ := Option.isSome_iff_exists.mp (href "lineno" (by simp))
  obtain ⟨column, hcolumn⟩ := Option.isSome_iff_exists.mp (href "col_offset" (by simp))
  have hplace := place_of_trees mode (fun name => (reference.attr? name).getD none) hv
  simpa [fixLocations, hline, hcolumn] using hplace

/-- The trees of `return lambda x: y` and `pass`. The lambda has a column only, and its parameters are
held by a node that never has a location. -/
private def halfPlaced (returned lambda inner passed : Attrs) : Value :=
  .list [.node .returnStmt (("value", .node .lambda ([
      ("args", .node .arguments [("args", .list [.node .arg (("arg", .str "x") :: inner)])]),
      ("body", .node .name (("id", .str "y") :: inner))] ++ lambda)) :: returned),
    .node .passStmt passed]

theorem fixLocations_sited_halfPlaced :
    let reference := Value.node .passStmt [("lineno", .int 1), ("col_offset", .int 0)]
    let v := halfPlaced [("lineno", .int 5)] [("col_offset", .int 7)] [] []
    (∃ r, fixLocations .update reference v = (.ok r : Except Error Value) ∧
      Sited (origin .update fun name => (reference.attr? name).getD none) [] v r) ∧
    fixLocations .update reference v = (.ok (halfPlaced [("lineno", .int 5), ("col_offset", .int 0)]
      [("col_offset", .int 7), ("lineno", .int 5)] [("lineno", .int 5), ("col_offset", .int 7)]
      [("lineno", .int 1), ("col_offset", .int 0)]) : Except Error Value) :=
  ⟨fixLocations_sited .update (.inr rfl) (by decide +kernel), by rfl⟩

/-! ## Filling in with a journal -/

theorem isHidden_location :
    Attrs.isHidden "lineno" = false ∧ Attrs.isHidden "col_offset" = false ∧
      Attrs.isHidden "decorator_list" = false := by
  decide +kernel

private theorem mirrors_placeAttr {name : String} (hname : Attrs.isHidden name = false)
    (as : Attrs) (line : Value) :
    Mirrors (fun p q => unlabelledAttrs p.1 = q.1 ∧ p.2 = line ∧ q.2 = line.unlabelled)
      (placeAttr .reference as name line : Expansion (Attrs × Value))
      (placeAttr .reference (unlabelledAttrs as) name line.unlabelled) := by
  unfold placeAttr
  rw [get?_unlabelledAttrs hname]
  cases Attrs.get? as name with
  | none =>
    exact ((yields_assign hname as line).mirrors fun _ h => h).bind fun bs cs hcs =>
      mirrors_pure ⟨hcs, rfl, rfl⟩
  | some u => exact mirrors_pure ⟨rfl, rfl, rfl⟩

private theorem mirrors_placeAttrs (k : Kind) (as : Attrs) (line column : Value) :
    Mirrors (fun p q => unlabelledAttrs p.1 = q.1 ∧ p.2 = (line, column) ∧
        q.2 = (line.unlabelled, column.unlabelled))
      (placeAttrs .reference k as line column : Expansion (Attrs × Value × Value))
      (placeAttrs .reference k (unlabelledAttrs as) line.unlabelled column.unlabelled) := by
  unfold placeAttrs
  split
  · refine (mirrors_placeAttr isHidden_location.1 as line).bind ?_
    rintro ⟨bs, -⟩ ⟨-, -⟩ ⟨rfl, rfl, rfl⟩
    refine (mirrors_placeAttr isHidden_location.2.1 bs _).bind ?_
    rintro ⟨cs, -⟩ ⟨-, -⟩ ⟨rfl, rfl, rfl⟩
    exact mirrors_pure ⟨rfl, rfl, rfl⟩
  · exact mirrors_pure ⟨rfl, rfl, rfl⟩

/-- What stands for a tree after a pass: the same with and without labels, and a node for a node. -/
def Matches (v r s : Value) : Prop := r.unlabelled = s ∧ (v.isNode = true → s.isNode = true)

theorem mirrors_place (v line column : Value) :
    Mirrors (Matches v) (v.place .reference line column : Expansion Value)
      (v.unlabelled.place .reference line.unlabelled column.unlabelled) := by
  induction v using walkInduction with
  | node k as ih =>
    rw [unlabelled, place, place, fold_node, fold_node]
    refine (mirrors_placeAttrs k as line column).bind ?_
    rintro ⟨bs, line', column'⟩ ⟨cs, line'', column''⟩ ⟨hbs, hp, hq⟩
    cases hp
    cases hq
    obtain rfl : unlabelledAttrs bs = cs := hbs
    refine (mirrors_rebuild_from
      (fun _ (r : Value → Value → Expansion Value) => r line column)
      (fun _ (r : Value → Value → Except Error Value) => r line.unlabelled column.unlabelled) bs
      fun name hname u hu => ?_).mono fun r s h => ⟨h.1, fun _ => h.2⟩
    have hu := mem_children.mpr ⟨name, hname, hu⟩
    exact (ih u hu).mono fun r s h => ⟨h.1, h.2 (isNode_of_mem_children hu)⟩
  | rest v hn ih =>
    cases v with
    | node => cases hn
    | none => exact mirrors_pure ⟨rfl, (by cases ·)⟩
    | list xs =>
      rw [unlabelled, unlabelledItems_eq, place, place, fold_list, fold_list, foldItems_eq,
        foldItems_eq]
      rw [List.mapM_map, List.mapM_map]
      have hitems := mirrors_mapM_unlabelled
        (f := fun u => (u.place .reference line column : Expansion Value))
        (g := fun u => u.place .reference line.unlabelled column.unlabelled)
        fun u hu => (ih u hu).mono fun r s h => h.1
      refine hitems.bind fun rs ss hss => mirrors_pure ⟨?_, (by cases ·)⟩
      rw [unlabelled, unlabelledItems_eq, hss]
    | _ => exact mirrors_throw _

end Value

end TreeMacros
