import TreeMacros.Proofs.TreePhase

/-!
# Plain imports in the place of marked ones

Where a module imports macros or dialects, a plain import takes the place of the statement, and all
other statements stay as they are and where they are. The plain import has the location of the
statement that was there before, but the name in it has none. So a module with all its locations
keeps them just if it has no marked imports.
-/

namespace TreeMacros.Import

open Attrs (get? get?_set)
open Value (childrenAt collected collected_node isGiven)

variable {mark name : String} {names : List String} {as : Attrs} {s : Value} {ss ts : List Value}

/-- A node that should have a line and a column and does not. -/
def unplacedAt (k : Kind) (as : Attrs) : List Value :=
  if k.located && !(isGiven as "lineno" && isGiven as "col_offset") then [.node k as] else []

/-- The name of a module in a plain import of it. -/
def plainAlias (name : String) : Value :=
  .node .importAlias [("name", .str name), ("asname", .none)]

/-- The statements `ts` are the statements `ss`, but for plain imports of the modules `names` in the
place of marked imports. -/
inductive MadePlain (mark : String) : List Value → List String → List Value → Prop
  | nil : MadePlain mark [] [] []
  | kept (s : Value) {ss : List Value} {names : List String} {ts : List Value}
    (h : MadePlain mark ss names ts) : MadePlain mark (s :: ss) names (s :: ts)
  | plain (name : String) {s : Value} {ss : List Value} {names : List String} {ts : List Value}
    (hs : s.isMarkedImport mark = .ok true) (h : MadePlain mark ss names ts) :
    MadePlain mark (s :: ss) (name :: names) (plainImport name s :: ts)

namespace MadePlain

theorem append_left (before : List Value) (h : MadePlain mark ss names ts) :
    MadePlain mark (before ++ ss) names (before ++ ts) := by
  induction before with
  | nil => exact h
  | cons s before ih => exact .kept s ih

theorem refl (mark : String) (ss : List Value) : MadePlain mark ss [] ss := by
  simpa using append_left ss (@nil mark)

theorem mem (h : MadePlain mark ss names ts) :
    ∀ t ∈ ts, t ∈ ss ∨ ∀ mark, t.isMarkedImport mark = .ok false := by
  induction h with
  | nil => simp
  | kept s _ ih =>
    intro t ht
    rcases List.mem_cons.mp ht with rfl | ht
    · exact .inl (by simp)
    · exact (ih t ht).imp_left (List.mem_cons_of_mem _)
  | plain name _ _ ih =>
    intro t ht
    rcases List.mem_cons.mp ht with rfl | ht
    · exact .inr (Dialect.isMarkedImport_plainImport name _)
    · exact (ih t ht).imp_left (List.mem_cons_of_mem _)

end MadePlain

/-! ## Locations -/

private theorem exists_of_isMarkedImport (h : s.isMarkedImport mark = .ok true) :
    ∃ bs, s = .node .importFrom bs := by
  unfold Value.isMarkedImport at h
  split at h
  next => cases h
  next hkind => exact Value.exists_of_isKind (by simpa using hkind)

theorem collected_plainImport (name : String) (hs : s.isMarkedImport mark = .ok true)
    (h : s.collected unplacedAt = []) :
    ∃ bs, plainImport name s = .node .importStmt bs ∧
      (plainImport name s).collected unplacedAt = [plainAlias name] := by
  obtain ⟨as, rfl⟩ := exists_of_isMarkedImport hs
  rw [collected_node, List.append_eq_nil_iff] at h
  have hplace : (Value.node .importFrom as).HasPlace := by
    refine ⟨.importFrom, as, rfl, rfl, ?_⟩
    simpa [unplacedAt, Kind.located, Kind.shape] using h.1
  obtain ⟨bs, hbs, hothers, hline, hcolumn⟩ :=
    Value.exists_copyLocation_of_hasPlace (j := .importStmt) rfl [("names", .list [plainAlias name])]
      hplace
  have hchildren : Value.children .importStmt bs = [plainAlias name] := by
    have hnames : get? bs "names" = some (.list [plainAlias name]) := hothers "names" (by decide)
    change childrenAt bs "names" ++ [] = _
    rw [childrenAt, hnames]
    rfl
  have hrun : plainImport name (.node .importFrom as) = .node .importStmt bs := hbs
  refine ⟨bs, hrun, ?_⟩
  rw [hrun, collected_node, hchildren, unplacedAt, hline, hcolumn]
  rfl

theorem MadePlain.collected (h : MadePlain mark ss names ts)
    (hss : (ss.filter (·.isNode)).flatMap (collected unplacedAt) = []) :
    (ts.filter (·.isNode)).flatMap (Value.collected unplacedAt) = names.map plainAlias := by
  induction h with
  | nil => rfl
  | kept s _ ih =>
    by_cases hs : s.isNode
    · rw [List.filter_cons_of_pos hs, List.flatMap_cons, List.append_eq_nil_iff] at hss
      rw [List.filter_cons_of_pos hs, List.flatMap_cons, hss.1, ih hss.2]
      rfl
    · rw [List.filter_cons_of_neg hs] at hss ⊢
      exact ih hss
  | plain name hs _ ih =>
    obtain ⟨as, rfl⟩ := exists_of_isMarkedImport hs
    obtain ⟨hhere, hrest⟩ := List.append_eq_nil_iff.mp hss
    obtain ⟨bs, hbs, hplain⟩ := collected_plainImport name hs hhere
    rw [hbs, List.filter_cons_of_pos rfl, List.flatMap_cons, ← hbs, hplain, ih hrest]
    rfl

/-- What has become of a module whose statements were `ss`. -/
structure Rewritten (mark : String) (as : Attrs) (ss : List Value) (names : List String)
    (ts : List Value) (r : Value) : Prop where
  tree : r = .node .module (Attrs.set as "body" (.list ts))
  statements : MadePlain mark ss names ts
  arePlain : ∀ t ∈ ts, t ∈ ss ∨ ∀ mark, t.isMarkedImport mark = .ok false
  unplaced : r.collected unplacedAt = names.map plainAlias

theorem MadePlain.rewritten (h : MadePlain mark ss names ts)
    (hbody : get? as "body" = some (.list ss))
    (hplaced : (Value.node .module as).collected unplacedAt = []) :
    Rewritten mark as ss names ts (.node .module (Attrs.set as "body" (.list ts))) := by
  refine ⟨rfl, h, h.mem, ?_⟩
  have hmodule (as : Attrs) : (Value.node .module as).collected unplacedAt =
      (childrenAt as "body").flatMap (Value.collected unplacedAt) ++
        (childrenAt as "type_ignores").flatMap (Value.collected unplacedAt) := by
    rw [collected_node]
    change ((childrenAt as "body" ++ (childrenAt as "type_ignores" ++ [])).flatMap _ : List Value) = _
    rw [List.append_nil, List.flatMap_append]
  rw [hmodule, List.append_eq_nil_iff] at hplaced
  obtain ⟨hstatements, hrest⟩ := hplaced
  rw [childrenAt, hbody] at hstatements
  have hsame : childrenAt (Attrs.set as "body" (.list ts)) "type_ignores" =
      childrenAt as "type_ignores" := by
    rw [childrenAt, get?_set, if_neg (by decide), ← childrenAt]
  rw [hmodule, hsame, hrest, List.append_nil, childrenAt, get?_set, if_pos rfl]
  exact h.collected hstatements

/-! ## Searches -/

theorem takeImports_eq_ok {filename : String} {again : Bool} {body : Value} {bound : Bindings}
    {w u : World} (h : takeImports filename again body ss w = (.ok (ts, bound), u)) :
    ∃ names, MadePlain macrosMark ss names ts ∧
      ∀ t ∈ ts, t.isMarkedImport macrosMark = .ok false := by
  induction ss generalizing ts bound w with
  | nil =>
    cases h
    exact ⟨[], .nil, by simp⟩
  | cons s ss ih =>
    obtain ⟨marked, hmarked, h⟩ := Act.lift_bind_eq_ok.mp h
    cases marked with
    | false =>
      obtain ⟨⟨rest, more⟩, _, hrest, h⟩ := Act.bind_eq_ok.mp h
      cases h
      obtain ⟨names, hplain, hnone⟩ := ih hrest
      exact ⟨names, .kept s hplain, by simpa using ⟨hmarked, hnone⟩⟩
    | true =>
      obtain ⟨⟨name, _⟩, _, -, h⟩ := Act.bind_eq_ok.mp h
      obtain ⟨_, -, h⟩ := Act.lift_bind_eq_ok.mp h
      obtain ⟨⟨rest, more⟩, _, hrest, h⟩ := Act.bind_eq_ok.mp h
      cases h
      obtain ⟨names, hplain, hnone⟩ := ih hrest
      exact ⟨name :: names, .plain name hmarked hplain,
        by simpa using ⟨Dialect.isMarkedImport_plainImport name s _, hnone⟩⟩

/-- After a search for macros or for the next dialects, the module is as before but for plain imports
in the place of marked ones: of all macro imports, or of the first dialect import. The nodes without a
location are the names of modules in these. -/
theorem rewritten_of_search (hbody : get? as "body" = some (.list ss))
    (hplaced : (Value.node .module as).collected unplacedAt = []) :
    (∀ filename again w r bound u,
      findMacros (.node .module as) filename again w = (.ok (r, bound), u) →
        ∃ names ts, Rewritten macrosMark as ss names ts r ∧
          ∀ t ∈ ts, t.isMarkedImport macrosMark = .ok false) ∧
    ∀ p r name bound q, Dialect.next .tree (.node .module as) p = (.ok (some (r, name, bound)), q) →
      ∃ ts, Rewritten dialectsMark as ss [name] ts r := by
  have hattr : (Value.node .module as).attr "body" = .ok (.list ss) := by
    simp [Value.attr, Value.attr?, hbody]
  refine ⟨fun filename again w r bound u h => ?_, fun p r name bound q h => ?_⟩
  · obtain ⟨body, hget, h⟩ := Act.lift_bind_eq_ok.mp h
    cases hattr.symm.trans hget
    obtain ⟨_, hss, h⟩ := Act.lift_bind_eq_ok.mp h
    cases hss
    obtain ⟨⟨ts, _⟩, _, htake, h⟩ := Act.bind_eq_ok.mp h
    cases h
    obtain ⟨names, hplain, hnone⟩ := takeImports_eq_ok htake
    exact ⟨names, ts, hplain.rewritten hbody hplaced, hnone⟩
  · rcases Dialect.next_tree_eq_ok h with ⟨h, -⟩ | ⟨before, s, rest, _, _, _, hget, -, hs, h, -⟩
    · cases h
    · cases hattr.symm.trans hget
      cases h
      exact ⟨_, MadePlain.rewritten (.append_left before (.plain name hs (.refl _ rest))) hbody
        hplaced⟩

private def importFromD (mark : String) : Attrs :=
  let placed (k : Kind) (as : Attrs) : Value :=
    .node k (as ++ [("lineno", .int 1), ("col_offset", .int 0)])
  let named (name : String) : Value :=
    placed .importAlias [("name", .str name), ("asname", .none)]
  [("body", .list [placed .importFrom
      [("module", .str "d"), ("names", .list [named mark, named "D"]), ("level", .int 0)],
    placed .passStmt []]), ("type_ignores", .list [])]

private theorem next_importFromD :
    ∃ r name bound q, Dialect.next .tree (.node .module (importFromD "dialects"))
      Dialect.withEmptying = (.ok (some (r, name, bound)), q) := by
  have hrun : ((Dialect.next .tree (.node .module (importFromD "dialects"))
      Dialect.withEmptying).1.toOption.bind id).isSome := by decide +kernel
  cases h : Dialect.next .tree (.node .module (importFromD "dialects")) Dialect.withEmptying with
  | mk o q =>
    rw [h] at hrun
    rcases o with e | _ | ⟨r, name, bound⟩
    · cases hrun
    · cases hrun
    · exact ⟨r, name, bound, q, rfl⟩

theorem rewritten_of_search_dialects :
    (Value.node .module (importFromD "dialects")).collected unplacedAt = [] ∧
    ∃ r name bound q, Dialect.next .tree (.node .module (importFromD "dialects"))
        Dialect.withEmptying = (.ok (some (r, name, bound)), q) ∧
      r.collected unplacedAt = [plainAlias name] := by
  have hplaced : (Value.node .module (importFromD "dialects")).collected unplacedAt = [] := by rfl
  obtain ⟨r, name, bound, q, hrun⟩ := next_importFromD
  obtain ⟨ts, h⟩ := (rewritten_of_search (by rfl) hplaced).2 _ r name bound q hrun
  exact ⟨hplaced, r, name, bound, q, hrun, h.unplaced⟩

/-- The name in the plain import that takes the place of a macro import has no location. -/
theorem unplaced_of_findMacros :
    (Value.node .module (importFromD "macros")).collected unplacedAt = [] ∧
    (findMacros (.node .module (importFromD "macros")) "example.py" false
      Dialect.withEmptying.world).1.toOption.any (fun r =>
        (r.1.collected unplacedAt).any (·.isKind .importAlias)) = true := by
  refine ⟨rfl, ?_⟩
  decide +kernel

end TreeMacros.Import
