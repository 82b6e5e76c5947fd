import TreeMacros.Proofs.Splicing

/-!
# Pasting into templates

What becomes of a template when statements are pasted at every place that it marks, at whatever
depth. A body that is a single node counts as a list of one statement. A template that is a single
node does not: it takes the place of the body.
-/

namespace TreeMacros

namespace Value

/-! ## Copies -/

/-- All nodes in the value, wherever they stand, are of kinds that the grammar produces, and have no
labels. -/
def isGrammatical : Value → Bool :=
  fold (fun k _ parts => k.category?.isSome && parts.all fun p => !Attrs.isHidden p.1 && p.2.result)
    fun _ items entries => items.all (·.result) && entries.all (·.result)

private theorem deepCopyItems_of_same {xs : List Value} (h : ∀ x ∈ xs, x.deepCopy = .ok x) :
    deepCopyItems xs = .ok xs := by
  induction xs with
  | nil => rfl
  | cons x xs ih =>
    rw [deepCopyItems, h x (by simp), ih fun y hy => h y (by simp [hy])]
    rfl

private theorem deepCopyAttrs_of_same {as : Attrs}
    (h : ∀ a ∈ as, Attrs.isHidden a.1 = false ∧ a.2.deepCopy = .ok a.2) :
    deepCopyAttrs as = .ok as := by
  induction as with
  | nil => rfl
  | cons a as ih =>
    obtain ⟨hhidden, hcopy⟩ := h a (by simp)
    rw [deepCopyAttrs, if_neg (by simp [hhidden]), hcopy, ih fun b hb => h b (by simp [hb])]
    rfl

private theorem deepCopyEntries_of_same {es : List (Value × Value)}
    (h : ∀ e ∈ es, e.1.deepCopy = .ok e.1 ∧ e.2.deepCopy = .ok e.2) :
    deepCopyEntries es = .ok es := by
  induction es with
  | nil => rfl
  | cons e es ih =>
    obtain ⟨hkey, hvalue⟩ := h e (by simp)
    rw [deepCopyEntries, hkey, hvalue, ih fun d hd => h d (by simp [hd])]
    rfl

theorem deepCopy_of_isGrammatical {v : Value} (h : v.isGrammatical) : v.deepCopy = .ok v := by
  induction v using heldInduction with
  | h v ih =>
    cases v with
    | node k as =>
      rw [isGrammatical, fold_node, foldAttrs_eq, Bool.and_eq_true, List.all_map,
        List.all_eq_true] at h
      have hkind : k.isMarker = false ∧ ∀ bs, copyNode k bs = node k bs := by
        revert h
        cases k <;> first | exact fun _ => ⟨rfl, fun _ => rfl⟩ | exact fun h => nomatch h.1
      have hattrs : deepCopyAttrs as = .ok as := deepCopyAttrs_of_same fun a ha => by
        have hboth := Bool.and_eq_true_iff.mp (h.2 a ha)
        exact ⟨by simpa using hboth.1, ih a.2 (List.mem_map_of_mem ha) hboth.2⟩
      rw [deepCopy, if_neg (by simp [hkind.1]), hattrs]
      exact congrArg Except.ok (hkind.2 as)
    | list xs | tuple xs | set xs | frozenset xs =>
      have hitems : (foldItems _ _ xs).all (·.result) := (Bool.and_eq_true_iff.mp h).1
      rw [foldItems_eq, List.all_map, List.all_eq_true] at hitems
      have hcopies : deepCopyItems xs = .ok xs :=
        deepCopyItems_of_same fun x hx => ih x hx (hitems x hx)
      rw [deepCopy, hcopies]
      rfl
    | dict es =>
      obtain ⟨hkeys, hvalues⟩ := Bool.and_eq_true_iff.mp
        (show ((foldKeys _ _ es).all (·.result) && (foldValues _ _ es).all (·.result)) from h)
      rw [foldKeys_eq, List.all_map, List.all_eq_true] at hkeys
      rw [foldValues_eq, List.all_map, List.all_eq_true] at hvalues
      rw [deepCopy, deepCopyEntries_of_same fun e he =>
        ⟨ih _ (List.mem_append_left _ (List.mem_map_of_mem he)) (hkeys e he),
          ih _ (List.mem_append_right _ (List.mem_map_of_mem he)) (hvalues e he)⟩]
      rfl
    | _ => rfl

end Value

namespace Splice

/-! ## Templates -/

/-- A tree with the statements `body` at each place to paste at. -/
def completed (tag : Value) (body : List Value) : Value → Value :=
  Value.fold
    (fun k as parts =>
      if isPlace tag (.node k as) then .list body else .node k (Value.gather k as parts))
    fun v _ _ => v

section

variable {tag : Value} {body vs : List Value} {k : Kind} {as : Attrs} {v : Value}

theorem completed_node (tag : Value) (body : List Value) (k : Kind) (as : Attrs) :
    completed tag body (.node k as) =
      if isPlace tag (.node k as) then .list body
      else .node k (Value.replaceChildren (completed tag body) k as) := by
  rw [completed, Value.fold_node, Value.gather_foldAttrs]

theorem spliced_completed (hbody : body ≠ []) (hn : v.isNode) :
    (completed tag body v).isPiece ∧ (completed tag body v).spliced ≠ [] := by
  cases v with
  | node k as =>
    rw [completed_node]
    split
    · exact ⟨rfl, hbody⟩
    · exact ⟨rfl, List.cons_ne_nil _ _⟩
  | _ => cases hn

theorem gives_nextBody (h : body.all (·.isGrammatical)) :
    (Giving.always Bool).gives (nextBody (.list body)) (.list body) := by
  have hcopy : (Value.list body).deepCopy = .ok (.list body) := by
    refine Value.deepCopy_of_isGrammatical (Bool.and_eq_true_iff.mpr ⟨?_, rfl⟩)
    change (Value.foldItems _ _ body).all (·.result)
    rw [Value.foldItems_eq, List.all_map]
    exact h
  intro pasted
  cases pasted with
  | false => exact ⟨true, rfl⟩
  | true =>
    refine ⟨true, ?_⟩
    change ((Value.list body).deepCopy >>= _) = _
    rw [hcopy]
    rfl

theorem gives_paste (hbody : body ≠ []) (hcopies : body.all (·.isGrammatical))
    (hn : v.isNode) (hparts : v.throughout (fun _ => true) givesParts) :
    (Giving.always Bool).gives (paste tag (.list body) v) (completed tag body v) := by
  induction v using Value.walkInduction with
  | node k as ih =>
    obtain ⟨hhere, hbelow⟩ := Value.throughout_node.mp hparts
    have htag : isTag tag (.node k as) = .ok (isPlace tag (.node k as)) := isTag_ok hhere
    rw [completed_node]
    refine (Giving.always Bool).bind (a := isPlace tag (.node k as)) (fun pasted => ⟨pasted, ?_⟩) ?_
    · rw [htag]
      rfl
    split
    · exact gives_nextBody hcopies
    · refine (Giving.always Bool).rebuild (fun r => r) fun u hu => ?_
      have hnode := Value.isNode_of_mem_children hu
      exact ⟨ih u hu hnode (hbelow rfl u hu), (spliced_completed hbody hnode).1⟩
  | rest v hv => simp [hv] at hn

/-- Lists of statements: each place in the template, at any depth, gives way to the body. -/
theorem statements_completed (hbody : body ≠ []) (hcopies : body.all (·.isGrammatical))
    (hvs : vs ≠ []) (hread : ∀ v ∈ vs, v.isNode ∧
      v.throughout (fun _ => true) givesParts = true) :
    statements (.list body) (.list vs) tag =
      .ok (.list (vs.flatMap fun v => (completed tag body v).spliced), .template) := by
  have hmap := (Giving.always Bool).mapM (h := completed tag body) fun v hv =>
    gives_paste hbody hcopies (hread v hv).1 (hread v hv).2
  obtain ⟨pasted, hpasted⟩ := hmap false
  have hsuite : Value.suite (vs.map (completed tag body)) =
      .list (vs.flatMap fun v => (completed tag body v).spliced) := by
    obtain ⟨v, hv⟩ := List.exists_mem_of_ne_nil vs hvs
    obtain ⟨b, hb⟩ := List.exists_mem_of_ne_nil (completed tag body v).spliced
      (spliced_completed hbody (hread v hv).1).2
    rw [Value.suite_of_ne_nil] <;> rw [List.flatMap_map]
    exact List.ne_nil_of_mem (List.mem_flatMap.mpr ⟨v, hv, hb⟩)
  have hrun : (paste tag (.list body) (.list vs)).run false =
      .ok (.list (vs.flatMap fun v => (completed tag body v).spliced), pasted) := by
    rw [paste, Value.fold_list, Value.foldItems_eq]
    simp only [List.mapM_map]
    change ((vs.mapM (paste tag (.list body))) >>= fun rs => pure (Value.suite rs)).run false = _
    rw [StateT.run_bind, hpasted, ← hsuite]
    rfl
  have htruthy : (Value.list body).isTruthy ∧ (Value.list vs).isTruthy := by
    simpa [Value.isTruthy] using ⟨hbody, hvs⟩
  unfold statements
  simp only [Value.isNode, asList, Bool.false_eq_true, ↓reduceIte, htruthy, Bool.not_true, hrun]
  rfl

/-! ## Single nodes -/

private theorem map_bind_congr {α β γ : Type} {act : Except Error α} {f g : α → Except Error β}
    {h : β → γ} (hfg : ∀ a, (f a).map h = (g a).map h) : (act >>= f).map h = (act >>= g).map h := by
  cases act with
  | ok a => exact hfg a
  | error e => rfl

/-- Splicing lists fills in every place, and a body that is a single node counts as a list. A template
that is a single node is what is pasted: the body is lost. -/
theorem splicing_of_forms (hbody : body ≠ []) (hcopies : body.all (·.isGrammatical) = true)
    (hvs : vs ≠ []) (hread : ∀ v ∈ vs, v.isNode = true ∧
      v.throughout (fun _ => true) givesParts = true) :
    statements (.list body) (.list vs) tag =
        .ok (.list (vs.flatMap fun v => (completed tag body v).spliced), .template) ∧
      (∀ b, b.isNode = true → ∀ template, template.isNode = false →
        (statements b template tag).map (·.1) = (statements (.list [b]) template tag).map (·.1) ∧
        (dialect b template tag).map (·.result) = (dialect (.list [b]) template tag).map (·.result)) ∧
      ∀ passed v, isStatement (isPlace tag) v = true →
        statements passed v tag =
          .ok (if isPlace tag v then (.list [v], .new) else (v, .template)) ∧
        (dialect passed v tag).map (·.result) = .error (.fault (.notIterable v.typeName)) := by
  refine ⟨statements_completed hbody hcopies hvs hread, ?_, ?_⟩
  · intro b hb template htemplate
    have hlist : asList b = .list [b] := if_pos hb
    have hsame : asList (.list [b]) = .list [b] := rfl
    constructor
    · simp only [statements, htemplate, hlist, hsame, Bool.false_eq_true, ↓reduceIte]
      split
      · rfl
      · split <;> rfl
    · simp only [dialect, htemplate, hlist, hsame, Bool.false_eq_true, ↓reduceIte]
      split
      · rfl
      · split
        · rfl
        · refine map_bind_congr fun first => map_bind_congr fun page => map_bind_congr fun located =>
            map_bind_congr fun content => map_bind_congr fun starts => ?_
          generalize (if starts = true then (content.take 1, content.drop 1) else ([], content)) = p
          obtain ⟨docstring, rest⟩ := p
          refine map_bind_congr fun body => map_bind_congr fun page => map_bind_congr fun page =>
            map_bind_congr fun body => map_bind_congr fun body => map_bind_congr fun final =>
            map_bind_congr fun final => rfl
  · intro passed v hv
    obtain ⟨k, as, rfl, hparts⟩ := exists_of_isStatement hv
    refine ⟨?_, rfl⟩
    have htag : isTag tag (.node k as) = .ok (isPlace tag (.node k as)) := isTag_ok hparts
    have hpaste := paste_statement (.list [.node k as]) hv
    change (do if ← isTag tag (.node k as) then _ else _) = _
    rw [htag]
    cases hplace : isPlace tag (.node k as) with
    | true => rfl
    | false =>
      rw [hplace] at hpaste
      change ((paste tag (.list [.node k as]) (.node k as)).run false >>= _) = _
      rw [hpaste]
      rfl

end

private def choice : Value :=
  .node .ifStmt [("test", .node .name [("id", .str "here"), ("ctx", .node .load [])]),
    ("body", .list [bareName "here"]), ("orelse", .list [])]

/-- Two statements are pasted twice, once below another statement. -/
theorem splicing_of_lists :
    let body := [bareName "x", .node .passStmt []]
    body.all (·.isGrammatical) = true ∧
      statements (.list body) (.list [choice, bareName "here"]) (.str "here") =
        .ok (.list (.node .ifStmt [("test", .node .name [("id", .str "here"), ("ctx", .node .load [])]),
          ("body", .list body), ("orelse", .list [])] :: body), .template) := by
  intro body
  have hcopies : body.all (·.isGrammatical) = true := by decide +kernel
  have hread : ∀ v ∈ [choice, bareName "here"], v.isNode = true ∧
      v.throughout (fun _ => true) givesParts = true := by decide +kernel
  refine ⟨hcopies, (splicing_of_forms (by decide) hcopies (by decide) hread).1.trans ?_⟩
  cbv

/-- A template that is a single node is not spliced as the list of it is: what is pasted is the
template, which comes to an end only if it has no place inside, and a dialect cannot be spliced. -/
theorem splicing_of_single_template :
    statements (.list [bareName "x"]) (bareName "here") (.str "here") =
        .ok (.list [bareName "here"], .new) ∧
      statements (.list [bareName "x"]) (.list [bareName "here"]) (.str "here") =
        .ok (.list [bareName "x"], .template) ∧
      statements (.list [bareName "x"]) choice (.str "here") = .error (.fault .tooDeep) ∧
      (dialect (.list [bareName "x"]) (bareName "here") (.str "here")).map (·.result) =
        .error (.fault (.notIterable "Expr")) :=
  ⟨by cbv, by cbv, by cbv, by cbv⟩

end Splice

end TreeMacros
