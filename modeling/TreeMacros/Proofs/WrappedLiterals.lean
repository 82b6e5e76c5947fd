import TreeMacros.Library.Literals
import TreeMacros.Proofs.LocatedOutput
import TreeMacros.Proofs.Shapes

/-!
# Wrapped literals

Wrapping stops at the literals that it finds: it looks into no display, does not tell whether
something is assigned to it, and drops the constants of other types. Each literal is wrapped and
nothing is lost just in the trees where none of this matters.
-/

namespace TreeMacros

open Attrs (get?)

namespace Value

variable {k : Kind} {as : Attrs} {g h : Value → Value} {f : String} {u v : Value} {xs : List Value}

theorem get?_replaceChildren (hf : f ∈ k.fieldNames) :
    get? (replaceChildren g k as) f = (get? as f).bind (remains? g) := by
  -- The names that are still to come have in `bs` what they have in `as`.
  have hfold : ∀ (names : List String) (bs : Attrs), names.Nodup →
      (∀ name ∈ names, get? bs name = get? as name) →
      get? (names.foldl (fun bs name => (get? as name).elim bs (replaceAt g bs name)) bs) f =
      if f ∈ names then (get? as f).bind (remains? g) else get? bs f := by
    intro names
    induction names with
    | nil => exact fun _ _ _ => rfl
    | cons name names ih =>
      intro bs hnodup hsame
      obtain ⟨hnot, hnodup⟩ := List.nodup_cons.mp hnodup
      have hhere := hsame name (by simp)
      rw [List.foldl_cons]
      cases hv : get? as name with
      | none =>
        refine (ih bs hnodup fun n hn => hsame n (by simp [hn])).trans ?_
        by_cases hname : f = name
        · simp [hname, hnot, hhere, hv]
        · simp [hname]
      | some v =>
        have hget (n : String) : get? (replaceAt g bs name v) n =
            if n = name then remains? g v else get? bs n := by
          rw [get?_replaceAt]
          cases v <;> grind [isVisited, isNode, isList, remains?]
        refine (ih _ hnodup fun n hn => ?_).trans ?_
        · have hne : n ≠ name := fun e => hnot (e ▸ hn)
          rw [Option.elim_some, hget, if_neg hne, hsame n (by simp [hn])]
        · by_cases hname : f = name
          · simp [hname, hnot, hget, hv]
          · simp [hname, hget]
  rw [← (hfold _ as k.fieldNames_nodup fun _ _ => rfl).trans (if_pos hf), replaceChildren, replaceFrom]
  congr! 4 with bs name
  cases get? as name <;> rfl

/-- A list that has lost an element is shorter than one that has not. -/
theorem flatMap_eq_flatMap_iff {a b : Value → List Value}
    (h : ∀ u ∈ xs, (a u).length ≤ 1 ∧ (b u).length = 1) :
    xs.flatMap a = xs.flatMap b ↔ ∀ u ∈ xs, a u = b u := by
  refine ⟨fun hlists => ?_, fun hall => List.flatMap_congr hall⟩
  induction xs with
  | nil => simp
  | cons u xs ih =>
    rw [List.forall_mem_cons] at h ⊢
    have hshort : (xs.flatMap a).length ≤ (xs.flatMap b).length := by
      rw [List.length_flatMap, List.length_flatMap]
      exact List.sum_le_sum fun v hv => (h.2 v hv).1.trans (h.2 v hv).2.ge
    rw [List.flatMap_cons, List.flatMap_cons] at hlists
    have hlength : (a u).length = (b u).length := by
      have hboth := congrArg List.length hlists
      rw [List.length_append, List.length_append] at hboth
      omega
    obtain ⟨hhead, htail⟩ := List.append_inj hlists hlength
    exact ⟨hhead, ih h.2 htail⟩

private theorem shape_none_ne (hv : v.isNode) : none.shape ≠ v.shape := by
  intro hshape
  have hnode := congrArg isNode hshape
  rw [isNode_shape, isNode_shape, hv] at hnode
  cases hnode

private theorem spliced_eq_iff (hu : u.isNone ∨ u.isNode) (hv : v.isNode) :
    ((spliced u).map shape = (spliced v).map shape ↔ u.shape = v.shape) ∧
      (spliced u).length ≤ 1 ∧ (spliced v).length = 1 := by
  cases v with
  | node j bs =>
    cases u with
    | none => simpa [spliced] using shape_none_ne (v := node j bs) rfl
    | node => simp [spliced]
    | _ => simp [isNone, isNode] at hu
  | _ => cases hv

theorem shape_replaceChildren_eq_iff (hg : ∀ u ∈ children k as, (g u).isNone ∨ (g u).isNode)
    (hh : ∀ u ∈ children k as, (h u).isNode) :
    (node k (replaceChildren g k as)).shape = (node k (replaceChildren h k as)).shape ↔
      ∀ u ∈ children k as, (g u).shape = (h u).shape := by
  have hchildren : (∀ u ∈ children k as, (g u).shape = (h u).shape) ↔
      ∀ f ∈ k.fields, ∀ u ∈ childrenAt as f.name, (g u).shape = (h u).shape := by
    simp only [mem_children, Kind.fieldNames, List.mem_map]
    grind
  rw [shape_node_eq_iff, hchildren]
  refine forall₂_congr fun f hf => ?_
  have hname : f.name ∈ k.fieldNames := List.mem_map_of_mem hf
  have hmem (u : Value) (hu : u ∈ childrenAt as f.name) := mem_children.mpr ⟨f.name, hname, hu⟩
  simp only [outlineAt, field?, get?_replaceChildren hname]
  cases hv : get? as f.name with
  | none => simp [childrenAt, hv]
  | some v =>
    cases v with
    | node j bs =>
      have hu := hmem (node j bs) (mem_childrenAt.mpr ⟨rfl, .inl hv⟩)
      have hlost := hg _ hu
      have hnode := hh _ hu
      simp only [childrenAt, hv, remains?, List.forall_mem_singleton, Option.bind_some]
      cases hhu : h (node j bs) with
      | node =>
        cases hgu : g (node j bs) with
        | none =>
          have hne := shape_none_ne (hhu ▸ hnode)
          refine iff_of_false (fun he => ?_) hne
          cases hoptional : f.optional <;> simp [isNone, hoptional] at he
          exact hne he
        | node => simp [isNone, shape]
        | _ => simp [hgu, isNone, isNode] at hlost
      | _ => simp [hhu, isNode] at hnode
    | list xs =>
      have hxs (u : Value) (hu : u ∈ xs) (hn : u.isNode) :=
        hmem u (mem_childrenAt.mpr ⟨hn, .inr ⟨xs, hv, hu⟩⟩)
      have hone (u : Value) (hu : u ∈ xs) (hn : u.isNode) :=
        spliced_eq_iff (hg u (hxs u hu hn)) (hh u (hxs u hu hn))
      simp only [childrenAt, hv, remains?, Option.bind_some, ↓reduceIte, Option.map_some,
        Option.some.injEq, outline_list, list.injEq, List.map_flatMap, List.mem_filter, and_imp]
      rw [flatMap_eq_flatMap_iff]
      · refine forall₂_congr fun u hu => ?_
        cases hn : u.isNode with
        | true =>
          rw [if_pos rfl, if_pos rfl]
          exact (hone u hu hn).1.trans (by simp)
        | false => simp
      · intro u hu
        split
        next hn => simpa using (hone u hu hn).2
        next => simp
    | _ => simp [childrenAt, hv, remains?]

theorem shape_copyLocation (hk : k.located) (old : Value) :
    ((node k as).copyLocation old).shape = (node k as).shape := by
  obtain ⟨bs, hbs, hget, -⟩ := exists_copyLocation k as old
  rw [hbs]
  exact outline_congr fun f hf _ => by rw [hget f (notMem_locationNames hk f hf)]

end Value

namespace Library

open Value hiding none set

variable {k : Kind} {as : Attrs} {u v : Value} {name : String} {xs : List Value}

/-- The type that a literal stands for a value of. Displays that are assigned to stand for none. -/
def literalName? (k : Kind) (as : Attrs) : Option String :=
  let isRead := (get? as "ctx").any (·.isKind .load)
  match k, get? as "value" with
  | .constant, some (.str _) => some "str"
  | .constant, some (.int _) | .constant, some (.float _) | .constant, some (.complex _) => some "num"
  | .constant, some (.tuple _) => some "tuple"
  | .tuple, _ => if isRead then some "tuple" else none
  | .list, _ => if isRead then some "list" else none
  | .set, _ => some "set"
  | .dict, _ => some "dict"
  | _, _ => none

/-- The tree with each literal in a call of the constructor of its type, at any depth. -/
def withConstructors : Value → Value :=
  fold
    (fun k as parts =>
      let v := node k (gather k as parts)
      ((literalName? k as).map (wrap · v)).getD v)
    fun v _ _ => v

/-- The kinds of nodes that wrapping does not look into. -/
def isClosed (k : Kind) : Bool := [.constant, .tuple, .list, .set, .dict].contains k

/-- A node that wrapping does not look into is a literal, and there are no others in it. -/
def isPlain (k : Kind) (as : Attrs) : Bool :=
  !isClosed k || ((literalName? k as).isSome && (children k as).all
    (throughout (fun _ => true) fun k as => (literalName? k as).isNone))

theorem withConstructors_node (k : Kind) (as : Attrs) :
    withConstructors (node k as) =
      ((literalName? k as).map (wrap · (node k (replaceChildren withConstructors k as)))).getD
        (node k (replaceChildren withConstructors k as)) := by
  rw [withConstructors, fold_node, gather_foldAttrs]

theorem shape_wrap (name : String) (v : Value) : (wrap name v).shape =
    node .call [("func", node .name [("id", .str name), ("ctx", node .load [])]),
      ("args", list [v.shape]), ("keywords", list [])] :=
  (shape_copyLocation rfl v).trans rfl

theorem shape_wrap_eq_iff : (wrap name u).shape = (wrap name v).shape ↔ u.shape = v.shape := by
  simp [shape_wrap]

theorem kind?_wrap (name : String) (v : Value) : (wrap name v).kind? = some .call := by
  rw [← kind?_shape, shape_wrap]
  rfl

theorem kind?_withConstructors (k : Kind) (as : Attrs) : (withConstructors (node k as)).kind? =
    some (if (literalName? k as).isSome then .call else k) := by
  rw [withConstructors_node]
  cases literalName? k as with
  | none => rfl
  | some name => exact kind?_wrap name _

private theorem isNode_of_kind? (h : v.kind? = some k) : v.isNode := by
  cases v with
  | node => rfl
  | _ => cases h

theorem isNode_withConstructors (hu : u ∈ children k as) : (withConstructors u).isNode := by
  have hn := isNode_of_mem_children hu
  cases u with
  | node j bs => exact isNode_of_kind? (kind?_withConstructors j bs)
  | _ => cases hn

theorem shape_eq_replaceChildren_iff :
    (node k as).shape = (node k (replaceChildren withConstructors k as)).shape ↔
      ∀ u ∈ children k as, u.shape = (withConstructors u).shape := by
  have hiff := shape_replaceChildren_eq_iff (g := fun u => u)
    (fun u (hu : u ∈ children k as) => .inr (isNode_of_mem_children hu))
    fun _ hu => isNode_withConstructors hu
  rwa [replaceChildren_id] at hiff

theorem isClosed_of_literalName? (h : literalName? k as = some name) : isClosed k := by
  unfold literalName? at h
  split at h <;> first | rfl | cases h

theorem shape_eq_withConstructors_iff (hn : v.isNode) : v.shape = (withConstructors v).shape ↔
    v.throughout (fun _ => true) fun k as => (literalName? k as).isNone := by
  induction v using walkInduction with
  | rest v hrest => rw [hn] at hrest; cases hrest
  | node k as ih =>
    rw [throughout_node]
    cases hname : literalName? k as with
    | some name =>
      refine iff_of_false (fun hshape => ?_) (by simp)
      have hkind := congrArg kind? hshape
      rw [kind?_shape, kind?_shape, kind?_withConstructors, hname] at hkind
      change some k = some Kind.call at hkind
      have hclosed := isClosed_of_literalName? hname
      rw [Option.some.inj hkind] at hclosed
      cases hclosed
    | none =>
      rw [withConstructors_node, hname]
      refine shape_eq_replaceChildren_iff.trans ?_
      simp only [Option.isNone_none, true_and, forall_const]
      exact forall₂_congr fun u hu => ih u hu (isNode_of_mem_children hu)

/-! ## What wrapping does -/

private theorem wrapLiterals_of_isClosed (hown : k.conforms as) (hclosed : isClosed k) :
    ∃ name? : Option String, (wrapLiterals (node k as) : Except Error Value) =
        .ok ((name?.map (wrap · (node k as))).getD .none) ∧
      ∀ name, literalName? k as = some name → name? = some name := by
  simp only [isClosed, List.contains_eq_mem, List.mem_cons, List.not_mem_nil, or_false,
    decide_eq_true_eq] at hclosed
  rcases hclosed with rfl | rfl | rfl | rfl | rfl
  · obtain ⟨c, hc, -⟩ := Kind.exists_of_conforms hown "value" .literal (by decide)
    refine ⟨constantName? c, ?_, fun name hname => ?_⟩
    · rw [wrapLiterals, fold_node]
      simp only [attr_of_get? hc]
      rfl
    · simp only [literalName?, hc] at hname
      cases c <;> first | exact hname | cases hname
  all_goals exact ⟨some _, rfl, fun name hname => by simp_all [literalName?]⟩

private theorem wrapLiterals_of_not_isClosed {g : Value → Value} (hown : k.conforms as)
    (hopen : isClosed k = false) (hvisit : ∀ u ∈ children k as,
      (wrapLiterals u : Except Error Value) = .ok (g u) ∧ ((g u).isNone ∨ (g u).isNode)) :
    (wrapLiterals (node k as) : Except Error Value) = .ok (node k (replaceChildren g k as)) := by
  have hcategory : k.category?.isSome :=
    (Bool.and_eq_true_iff.mp (Bool.and_eq_true_iff.mp hown).1).1
  have hrebuild := Giving.ok.rebuild (fun r : Except Error Value => r) fun u hu =>
    ⟨(hvisit u hu).1, show (g u).isPiece by rcases (hvisit u hu).2 with h | h <;> simp [isPiece, h]⟩
  refine Eq.trans ?_ hrebuild
  cases k <;> first | rfl | exact absurd hopen (by decide) | exact absurd hcategory (by decide)

theorem wrapLiterals_of_conforms (hn : v.isNode) (h : v.throughout (fun _ => true) Kind.conforms) :
    ∃ r, (wrapLiterals v : Except Error Value) = .ok r ∧ (r.isNone ∨ r.isNode) ∧
      (r.shape = (withConstructors v).shape ↔ v.throughout (!isClosed ·) isPlain) := by
  induction v using walkInduction with
  | rest v hrest => rw [hn] at hrest; cases hrest
  | node k as ih =>
    obtain ⟨hown, hchildren⟩ := throughout_node.mp h
    have hbelow (u : Value) (hu : u ∈ children k as) :=
      ih u hu (isNode_of_mem_children hu) (hchildren rfl u hu)
    cases hclosed : isClosed k with
    | false =>
      choose! g hg hpiece hiff using hbelow
      refine ⟨_, wrapLiterals_of_not_isClosed hown hclosed fun u hu => ⟨hg u hu, hpiece u hu⟩,
        .inr rfl, ?_⟩
      have hname : literalName? k as = none := by
        cases hname : literalName? k as with
        | none => rfl
        | some name => rw [isClosed_of_literalName? hname] at hclosed; cases hclosed
      rw [withConstructors_node, hname, throughout_node]
      refine (shape_replaceChildren_eq_iff hpiece fun _ hu => isNode_withConstructors hu).trans ?_
      simp only [isPlain, hclosed, Bool.not_false, Bool.true_or, true_and, forall_const]
      exact forall₂_congr hiff
    | true =>
      obtain ⟨name?, hrun, hname⟩ := wrapLiterals_of_isClosed hown hclosed
      refine ⟨_, hrun, ?_, ?_⟩
      · cases name? with
        | none => exact .inl rfl
        | some name => exact .inr (isNode_of_kind? (kind?_wrap name _))
      · rw [throughout_node]
        cases hlit : literalName? k as with
        | none =>
          refine iff_of_false (fun hshape => ?_) (by simp [isPlain, hclosed, hlit])
          have hkind := congrArg kind? hshape
          rw [kind?_shape, kind?_shape, kind?_withConstructors, hlit] at hkind
          cases name? with
          | none => cases hkind
          | some name =>
            have hcall : Kind.call = k := Option.some.inj ((kind?_wrap name _).symm.trans hkind)
            rw [← hcall] at hclosed
            cases hclosed
        | some name =>
          rw [hname name hlit, withConstructors_node, hlit]
          refine shape_wrap_eq_iff.trans (shape_eq_replaceChildren_iff.trans ?_)
          simp only [isPlain, hclosed, hlit, List.all_eq_true, Bool.not_true, Bool.false_or,
            Option.isSome_some, Bool.true_and, Bool.false_eq_true, false_imp_iff, and_true]
          exact forall₂_congr fun u hu => shape_eq_withConstructors_iff (isNode_of_mem_children hu)

/-- Every literal of well-formed statements is wrapped and nothing else changes, just if what wrapping
does not look into are literals without others in them. -/
theorem wrapLiterals_eq_withConstructors_iff (h : ∀ v ∈ xs, v.wellFormed) :
    ∃ rs, xs.mapM wrapLiterals = (.ok rs : Except Error (List Value)) ∧
      (rs.map shape = xs.map (fun v => (withConstructors v).shape) ↔
        ∀ v ∈ xs, v.throughout (!isClosed ·) isPlain) := by
  have hone (v : Value) (hv : v ∈ xs) := wrapLiterals_of_conforms
    (Bool.and_eq_true_iff.mp (h v hv)).1 (Bool.and_eq_true_iff.mp (h v hv)).2
  choose! g hg _ hiff using hone
  refine ⟨xs.map g, except_mapM_of_ok hg, ?_⟩
  rw [List.map_map, List.map_inj_left]
  exact forall₂_congr hiff

private def returning (v : Value) : Value := node .returnStmt [("value", v)]

private def constant (c : Value) : Value := node .constant [("value", c), ("kind", .none)]

private def display (elts : List Value) (ctx : Kind) : Value :=
  node .list [("elts", list elts), ("ctx", node ctx [])]

theorem wrapLiterals_eq_of_return :
    (∀ v ∈ [returning (display [] .load)], v.wellFormed) ∧
    ∃ rs, [returning (display [] .load)].mapM wrapLiterals = (.ok rs : Except Error (List Value)) ∧
      rs.map shape =
        [returning (display [] .load)].map fun v => (withConstructors v).shape := by
  have hformed : ∀ v ∈ [returning (display [] .load)], v.wellFormed := by decide +kernel
  obtain ⟨rs, hrun, hiff⟩ := wrapLiterals_eq_withConstructors_iff hformed
  exact ⟨hformed, rs, hrun, hiff.mpr (by decide +kernel)⟩

/-- `return None` loses what it returns, the literal in `return [1]` stays bare, and the target of
`del []` becomes a call. -/
theorem wrapLiterals_falls_short :
    wrapLiterals (returning (constant .none)) = (.ok (node .returnStmt []) : Except Error Value) ∧
    wrapLiterals (returning (display [constant (.int 1)] .load)) =
      (.ok (returning (wrap "list" (display [constant (.int 1)] .load))) : Except Error Value) ∧
    wrapLiterals (node .delete [("targets", list [display [] .del])]) =
      (.ok (node .delete [("targets", list [wrap "list" (display [] .del)])]) : Except Error Value) :=
  ⟨rfl, rfl, rfl⟩

end Library

end TreeMacros
