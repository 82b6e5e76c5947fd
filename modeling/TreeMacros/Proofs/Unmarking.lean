import TreeMacros.Expansion.Expander
import TreeMacros.Proofs.Outline

/-!
# Removing markers

A marker gives way to what it holds. The main statement is that removal gives a tree without
markers if and only if every marker that it comes to holds a node that is no marker itself; and
what becomes of the outcome of an expansion.
-/

namespace TreeMacros

variable {xs : List Value} {r : Value}

namespace Value

variable {family k : Kind} {as : Attrs} {v : Value}

/-- No walk through the tree meets a marker of the family. -/
def isUnmarked (family : Kind) (v : Value) : Bool :=
  v.throughout (fun _ => true) fun k _ => !family.isMarkerOf k

/-- The tree with each marker replaced by what it holds: a node, several nodes, or nothing. -/
def unmarked (family : Kind) : Value → Value :=
  fold
    (fun k as parts =>
      if family.isMarkerOf k then ((parts.lookup "body").map (·.result)).getD none
      else node k (k.fieldNames.foldl (fun bs name =>
        match parts.lookup name with
        | some p =>
          match p.value with
          | node .. =>
            if p.result.isNone then Attrs.erase bs name else Attrs.set bs name p.result
          | list _ =>
            Attrs.set bs name (list (p.items.flatMap fun i =>
              if i.value.isNode then i.result.spliced else [i.value]))
          | _ => bs
        | .none => bs) as))
    fun v items _ =>
      match v with
      | list _ => suite (items.map (·.result))
      | v => v

/-- Every marker that removal comes to holds a node, which is no marker itself. -/
def isPlain (family : Kind) : Value → Bool :=
  fold
    (fun k _ parts =>
      if family.isMarkerOf k then
        match parts.lookup "body" with
        | some p =>
          match p.value with
          | node c _ => !family.isMarkerOf c && p.result
          | _ => false
        | .none => false
      else (childItems k parts).all (·.result))
    fun v items _ =>
      match v with
      | list _ => items.all (·.result)
      | _ => false

theorem isUnmarked_node : (node k as).isUnmarked family ↔
    family.isMarkerOf k = false ∧ ∀ u ∈ children k as, u.isUnmarked family := by
  rw [isUnmarked, throughout_node]
  simp only [Bool.not_eq_true', forall_const]
  rfl

theorem isUnmarked_list :
    (list xs).isUnmarked family ↔ ∀ u ∈ xs, u.isUnmarked family :=
  throughout_list

theorem spreads_isUnmarked : Spreads (isUnmarked family · = true) :=
  ⟨throughout_other rfl rfl, fun _ => isUnmarked_list⟩

theorem unmarked_marker (hk : family.isMarkerOf k) (as : Attrs) :
    (node k as).unmarked family = ((Attrs.get? as "body").map (unmarked family)).getD none := by
  rw [unmarked, fold_node, if_pos hk, lookup_foldAttrs, Option.map_map]
  rfl

theorem unmarked_node (hk : family.isMarkerOf k = false) (as : Attrs) :
    (node k as).unmarked family = node k (replaceChildren (unmarked family) k as) := by
  rw [unmarked, fold_node, if_neg (by simp [hk])]
  exact congrArg (node k) (gather_foldAttrs _ _ k as)

theorem unmarked_list (xs : List Value) :
    (list xs).unmarked family = suite (xs.map (unmarked family)) := by
  rw [unmarked, fold_list, foldItems_eq, List.map_map]
  rfl

theorem isPlain_marker (hk : family.isMarkerOf k) :
    (node k as).isPlain family ↔ ∃ c bs, Attrs.get? as "body" = some (node c bs) ∧
      family.isMarkerOf c = false ∧ (node c bs).isPlain family := by
  rw [isPlain, fold_node, if_pos hk, lookup_foldAttrs]
  cases Attrs.get? as "body" with
  | none => simp
  | some v =>
    cases v with
    | node c bs =>
      simp only [Option.map_some, foldPart, Bool.and_eq_true, Bool.not_eq_true', Option.some.injEq,
        node.injEq, ↓existsAndEq, true_and]
      rfl
    | _ => simp [foldPart]

theorem isPlain_node (hk : family.isMarkerOf k = false) :
    (node k as).isPlain family ↔ ∀ u ∈ children k as, u.isPlain family := by
  rw [isPlain, fold_node, if_neg (by simp [hk]), childItems_foldAttrs, List.all_map,
    List.all_eq_true]
  rfl

theorem isPlain_list : (list xs).isPlain family ↔ ∀ u ∈ xs, u.isPlain family := by
  rw [isPlain, fold_list, foldItems_eq]
  simp only [List.all_map, List.all_eq_true]
  rfl

/-! ## Passes that remove markers -/

section

variable {m : Type → Type} [Monad m] [MonadExceptOf Error m] [Editing m]

theorem deleteMarkers_marker (hk : family.isMarkerOf k) (as : Attrs) :
    deleteMarkers (m := m) family (node k as) =
      match Attrs.get? as "body" with
      | some b => (unmarking family b).descend
      | .none => throw (.fault (.noAttribute k.typeName "body")) := by
  rw [deleteMarkers, unmarking, fold_node, unmarkNode]
  simp only [hk, ↓reduceIte, lookup_foldAttrs]
  cases Attrs.get? as "body" <;> rfl

theorem deleteMarkers_node (hk : family.isMarkerOf k = false) (as : Attrs) :
    deleteMarkers (m := m) family (node k as) = (unmarking family (node k as)).descend := by
  rw [deleteMarkers, unmarking, fold_node, unmarkNode]
  simp only [hk, Bool.false_eq_true, ↓reduceIte]

theorem descend_node (family k : Kind) (as : Attrs) :
    (unmarking (m := m) family (node k as)).descend =
      rebuild (fun _ i => i.result.visit) k as (foldAttrs (unmarkNode family)
        (fun v items _ => unmarkRest v items) as) := rfl

theorem deleteMarkers_list [LawfulMonad m] (family : Kind) (xs : List Value) :
    deleteMarkers (m := m) family (list xs) =
      xs.mapM (deleteMarkers family) >>= fun rs => pure (suite rs) := by
  rw [deleteMarkers, unmarking, fold_list, foldItems_eq, unmarkRest]
  simp only [List.mapM_map]
  rfl

end

private theorem isNode_of_descend {b : Value}
    (h : (unmarking (m := Except Error) family b).descend = .ok r) :
    ∃ c bs cs, b = node c bs ∧ r = node c cs := by
  cases b with
  | node c bs =>
    rw [descend_node] at h
    obtain ⟨cs, -, h⟩ := except_bind_eq_ok.mp h
    cases h
    exact ⟨c, bs, cs, rfl, rfl⟩
  | _ => cases h

theorem isNode_of_deleteMarkers (hv : v.isNode)
    (h : deleteMarkers (m := Except Error) family v = .ok r) : r.isNode := by
  cases v with
  | node k as =>
    cases hk : family.isMarkerOf k with
    | true =>
      rw [deleteMarkers_marker hk] at h
      split at h
      next b _ =>
        obtain ⟨c, bs, cs, -, rfl⟩ := isNode_of_descend h
        rfl
      next => cases h
    | false =>
      rw [deleteMarkers_node hk] at h
      obtain ⟨c, bs, cs, -, rfl⟩ := isNode_of_descend h
      rfl
  | _ => cases hv

private theorem descend_cases {b : Value}
    (h : (unmarking (m := Except Error) family b).descend = .ok r) :
    ∃ c bs cs, b = node c bs ∧ r = node c cs ∧
      (children c cs).map .ok = (children c bs).map (deleteMarkers (m := Except Error) family) := by
  obtain ⟨c, bs, cs, rfl, rfl⟩ := isNode_of_descend h
  rw [descend_node] at h
  obtain ⟨ds, hds, hall⟩ := map_ok_of_rebuild Unmarking.visit (fun u hu s hs =>
    isNode_of_deleteMarkers (isNode_of_mem_children hu) hs) h
  cases hds
  exact ⟨c, bs, cs, rfl, rfl, hall⟩

/-- Where a removal gives a tree without markers, every marker that it has come to holds a node,
which is no marker itself. -/
theorem isPlain_of_deleteMarkers (h : deleteMarkers (m := Except Error) family v = .ok r)
    (hr : r.isUnmarked family) : v.isPlain family := by
  induction v using partInduction generalizing r with
  | node k as hchildren hattrs =>
    cases hk : family.isMarkerOf k with
    | true =>
      rw [deleteMarkers_marker hk] at h
      cases hb : Attrs.get? as "body" with
      | none =>
        rw [hb] at h
        cases h
      | some b =>
        rw [hb] at h
        obtain ⟨c, bs, cs, rfl, rfl, -⟩ := descend_cases h
        have hc := (isUnmarked_node.mp hr).1
        have hplain := hattrs _ _ hb ((deleteMarkers_node hc bs).trans h) hr
        exact (isPlain_marker hk).mpr ⟨c, bs, hb, hc, hplain⟩
    | false =>
      rw [deleteMarkers_node hk] at h
      obtain ⟨c, bs, cs, hnode, rfl, hmap⟩ := descend_cases h
      cases hnode
      refine (isPlain_node hk).mpr fun u hu => ?_
      obtain ⟨s, hs, hsu⟩ := List.mem_map.mp (hmap ▸ List.mem_map_of_mem hu)
      exact hchildren u hu hsu.symm ((isUnmarked_node.mp hr).2 s hs)
  | rest v hn ih =>
    cases v with
    | node => cases hn
    | list xs =>
      rw [deleteMarkers_list] at h
      obtain ⟨rs, hrs, h⟩ := except_bind_eq_ok.mp h
      cases h
      refine isPlain_list.mpr fun u hu => ?_
      obtain ⟨s, hs, hsu⟩ := List.mem_map.mp (map_ok_of_mapM hrs ▸ List.mem_map_of_mem hu)
      exact ih u hu hsu.symm (spreads_isUnmarked.suite_iff.mp hr s hs)
    | _ => cases h

/-- Where every marker that a removal comes to holds a node that is no marker itself, it succeeds,
and leaves no marker. -/
theorem deleteMarkers_of_isPlain (h : v.isPlain family) :
    deleteMarkers (m := Except Error) family v = .ok (v.unmarked family) ∧
      (v.unmarked family).isUnmarked family = true := by
  induction v using partInduction with
  | node k as hchildren hattrs =>
    cases hk : family.isMarkerOf k with
    | true =>
      obtain ⟨c, bs, hb, hc, hplain⟩ := (isPlain_marker hk).mp h
      have hbody := hattrs _ _ hb hplain
      rw [deleteMarkers_marker hk, unmarked_marker hk, hb]
      rwa [deleteMarkers_node hc] at hbody
    | false =>
      have hall : ∀ u ∈ children k as, _ := fun u hu =>
        hchildren u hu ((isPlain_node hk).mp h u hu)
      have hrun : (unmarking (m := Except Error) family (node k as)).descend =
          .ok (node k (replaceChildren (unmarked family) k as)) := by
        rw [descend_node]
        refine Giving.ok.rebuild Unmarking.visit fun u hu => ⟨(hall u hu).1, ?_⟩
        have hnode := isNode_of_deleteMarkers (isNode_of_mem_children hu) (hall u hu).1
        simp [isPiece, hnode]
      rw [deleteMarkers_node hk, unmarked_node hk]
      refine ⟨hrun, isUnmarked_node.mpr ⟨hk, fun s hs => ?_⟩⟩
      obtain ⟨c, bs, cs, hcb, hcs, hmap⟩ := descend_cases hrun
      cases hcb
      cases hcs
      obtain ⟨u, hu, hus⟩ := List.mem_map.mp (hmap ▸ List.mem_map_of_mem hs)
      have heq := (hall u hu).1.symm.trans hus
      exact Except.ok.inj heq ▸ (hall u hu).2
  | rest v hn ih =>
    cases v with
    | node => cases hn
    | list xs =>
      have hall : ∀ u ∈ xs, _ := fun u hu => ih u hu (isPlain_list.mp h u hu)
      rw [deleteMarkers_list, except_mapM_of_ok fun u hu => (hall u hu).1, unmarked_list]
      refine ⟨rfl, spreads_isUnmarked.suite_iff.mpr fun r hr => ?_⟩
      obtain ⟨u, hu, rfl⟩ := List.mem_map.mp hr
      exact (hall u hu).2
    | _ => cases h

/-! ## Removal with a journal -/

theorem unlabelled_spliced (v : Value) :
    v.unlabelled.spliced = v.spliced.map unlabelled := by
  cases v <;> simp [spliced, unlabelled, unlabelledItems_eq]

theorem unlabelled_suite (rs : List Value) :
    (suite rs).unlabelled = suite (rs.map unlabelled) := by
  have hflat : flatten (rs.map unlabelled) = (flatten rs).map unlabelled := by
    simp only [flatten_eq, List.flatMap_map, List.map_flatMap, unlabelled_spliced]
  rw [suite, suite, hflat]
  cases flatten rs <;> simp [unlabelled, unlabelledItems_eq]

/-- A removal that notes its changes fails as one that does not, or gives the same but for
labels. -/
private theorem mirrors_unmarking (family : Kind) (v : Value) :
    Mirrors (fun r u => r.unlabelled = u ∧ (v.isNode → u.isNode))
      (unmarking family v).visit (unmarking family v.unlabelled).visit ∧
    Mirrors Unlabels (unmarking family v).descend (unmarking family v.unlabelled).descend := by
  induction v using partInduction with
  | node k as hchildren hattrs =>
    have hdescend : Mirrors Unlabels (unmarking family (node k as)).descend
        (unmarking family (node k as).unlabelled).descend := by
      rw [unlabelled, descend_node, descend_node]
      refine mirrors_rebuild Unmarking.visit Unmarking.visit fun u hu => ?_
      exact (hchildren u hu).1.mono fun a b hab => ⟨hab.1, hab.2 (isNode_of_mem_children hu)⟩
    suffices hvisit : Mirrors Unlabels (deleteMarkers family (node k as))
        (deleteMarkers family (node k (unlabelledAttrs as))) by
      exact ⟨hvisit.mono fun a b hab => ⟨hab.1, fun _ => hab.2⟩, hdescend⟩
    cases hk : family.isMarkerOf k with
    | true =>
      rw [deleteMarkers_marker hk, deleteMarkers_marker hk,
        get?_unlabelledAttrs (by decide +kernel)]
      cases hb : Attrs.get? as "body" with
      | none => exact mirrors_throw _
      | some b => exact (hattrs _ b hb).2
    | false =>
      rw [deleteMarkers_node hk, deleteMarkers_node hk]
      exact hdescend
  | rest v hn ih =>
    cases v with
    | node => cases hn
    | list xs =>
      refine ⟨?_, mirrors_throw _⟩
      change Mirrors _ (deleteMarkers family (list xs)) (deleteMarkers family (list xs).unlabelled)
      rw [unlabelled, unlabelledItems_eq, deleteMarkers_list, deleteMarkers_list]
      have hitems : Mirrors (fun (rs ss : List Value) => rs.map unlabelled = ss)
          (xs.mapM (deleteMarkers (m := Expansion) family))
          ((xs.map unlabelled).mapM (deleteMarkers (m := Except Error) family)) :=
        mirrors_mapM_unlabelled fun u hu => (ih u hu).1.mono fun _ _ h => h.1
      refine hitems.bind fun rs ss hss => mirrors_pure ⟨?_, fun h => by cases h⟩
      rw [unlabelled_suite, hss]
    | _ => exact ⟨mirrors_throw _, mirrors_throw _⟩

theorem mirrors_deleteMarkers (family : Kind) (v : Value) :
    Mirrors (fun r u => r.unlabelled = u) (deleteMarkers family v)
      (deleteMarkers family v.unlabelled) :=
  (mirrors_unmarking family v).1.mono fun _ _ h => h.1

end Value

theorem expandMacros_run {v : Value} {bindings : Bindings} {filename : String} {w t : World}
    (hvisit : (⟨bindings, filename⟩ : Expander).visitFor .recursive v w = (.ok r, t)) :
    (expandMacros v bindings filename w).1 = r.unlabelled.deleteMarkers .expanderMarker := by
  have hmirror := Value.mirrors_deleteMarkers .expanderMarker r
  rw [expandMacros, Act.bind_ok hvisit]
  match hrun : r.deleteMarkers (m := Expansion) .expanderMarker t with
  | (.ok s, t') =>
    obtain ⟨u, hu, rfl⟩ := hmirror.ok t s t' hrun
    rw [hu, removeMarks, Act.bind_ok hrun]
    rfl
  | (.error e, t') =>
    rw [hmirror.error t e t' hrun, removeMarks, Act.bind_error hrun]

/-- Removal succeeds and leaves no marker if and only if every marker that it comes to holds a node
that is no marker itself, and then each marker has given way to what it held. So an expansion leaves
none of its markers if and only if its visit has made such a tree. -/
theorem removal_iff_isPlain (family : Kind) (v : Value) :
    ((∃ r, v.deleteMarkers (m := Except Error) family = .ok r ∧ r.isUnmarked family = true) ↔
      v.isPlain family = true) ∧
    (v.isPlain family = true →
      v.deleteMarkers (m := Except Error) family = .ok (v.unmarked family)) ∧
    ∀ (bindings : Bindings) (filename : String) (w : World) (r : Value) (t : World),
      (⟨bindings, filename⟩ : Expander).visitFor .recursive v w = (.ok r, t) →
      ((∃ u, (expandMacros v bindings filename w).1 = .ok u ∧
          u.isUnmarked .expanderMarker = true) ↔
        r.unlabelled.isPlain .expanderMarker = true) ∧
      (r.unlabelled.isPlain .expanderMarker = true →
        (expandMacros v bindings filename w).1 = .ok (r.unlabelled.unmarked .expanderMarker)) := by
  have hiff (family : Kind) (v : Value) :
      (∃ r, v.deleteMarkers (m := Except Error) family = .ok r ∧ r.isUnmarked family = true) ↔
        v.isPlain family = true := by
    constructor
    · rintro ⟨r, hrun, hr⟩
      exact Value.isPlain_of_deleteMarkers hrun hr
    · intro h
      exact ⟨_, Value.deleteMarkers_of_isPlain h⟩
  refine ⟨hiff family v, fun h => (Value.deleteMarkers_of_isPlain h).1, ?_⟩
  intro bindings filename w r t hvisit
  rw [expandMacros_run hvisit]
  exact ⟨hiff .expanderMarker r.unlabelled, fun h => (Value.deleteMarkers_of_isPlain h).1⟩

/-- A macro that gives back its tree after one step of expansion, and an expander with it. -/
def stepper : Macro :=
  ⟨.made 0, "m", "m", none, false, false,
    .eager fun call => .need (.visit .once call.suite call.tree) .give⟩

def withStepper : Expander := ⟨[("m", .transformer stepper)], "example.py"⟩

private def nameTree (id : String) : Value :=
  .node .name [("id", .str id), ("ctx", .node .load [])]

def inBrackets (v : Value) : Value :=
  .node .subscript
    [("value", nameTree "m"), ("slice", .node .index [("value", v)]), ("ctx", .node .load [])]

def inBlock : Value :=
  .node .module
    [("body", .list [.node .withStmt
      [("items", .list [.node .withItem [("context_expr", nameTree "m")]]),
       ("body", .list [.node .passStmt []])]]),
     ("type_ignores", .list [])]

theorem expandMacros_inBrackets :
    ∃ r t, withStepper.visitFor .recursive (inBrackets (nameTree "x")) (.start (.ofQueue [])) =
        (.ok r, t) ∧ r.unlabelled.isUnmarked .expanderMarker = false ∧
      ∃ u, (expandMacros (inBrackets (nameTree "x")) withStepper.bindings withStepper.filename
          (.start (.ofQueue []))).1 = .ok u ∧ u.isUnmarked .expanderMarker = true := by
  have hrun : (match withStepper.visitFor .recursive (inBrackets (nameTree "x"))
        (.start (.ofQueue [])) with
      | (.ok r, _) => !r.unlabelled.isUnmarked .expanderMarker &&
          r.unlabelled.isPlain .expanderMarker
      | (.error _, _) => false) = true := by
    decide +kernel
  split at hrun
  next r t h =>
    rw [Bool.and_eq_true, Bool.not_eq_true'] at hrun
    have hexpand :=
      (removal_iff_isPlain .expanderMarker (inBrackets (nameTree "x"))).2.2 _ _ _ r t h
    exact ⟨r, t, h, hrun.1, hexpand.1.mpr hrun.2⟩
  next => cases hrun

/-- A marker in a marker is left over, and a marker that holds a list makes the removal fail. So
a step within a step leaves a marker behind, and a step from a block ends in an error. -/
theorem deleteMarkers_done_done :
    (((Value.node .done [("body", .node .done [("body", nameTree "x")])]).deleteMarkers
      (m := Except Error) .done).toOption.map (·.isUnmarked .done)) = some false ∧
    errorKind? ((Value.node .module [("body", .list [.node .done
      [("body", .list [.node .passStmt []])]])]).deleteMarkers .done) = some .attributeError ∧
    ((expandMacros (inBrackets (inBrackets (nameTree "x"))) withStepper.bindings
      withStepper.filename (.start (.ofQueue []))).1.toOption.map
        (·.isUnmarked .expanderMarker)) = some false ∧
    errorKind? (expandMacros inBlock withStepper.bindings withStepper.filename
      (.start (.ofQueue []))).1 = some .attributeError := by
  decide +kernel

end TreeMacros
