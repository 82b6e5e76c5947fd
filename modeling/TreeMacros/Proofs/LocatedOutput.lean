import Mathlib
import TreeMacros.Proofs.Locations

/-!
# Everything expanded has a location

From invocations with a location come trees with a location, also through nested and repeated
expansions, as long as macros leave locations open or give some. Whether they do is looked at in
each run: an expansion that checks what the macros give comes to the same end.
-/

namespace TreeMacros

open Value hiding none set
open Attrs (erase get? isHidden listLabelName)
open Act (Ensures ensures_pure ensures_throw Gives)

variable {name : String} {j : Kind}

variable {α : Type} {as bs : Attrs} {k : Kind} {v r : Value}

theorem gives_true (act : Expansion α) : Gives act fun _ => True :=
  fun _ _ _ _ _ => ⟨trivial, trivial⟩

theorem gives_fst {act : Expansion α} {Q : α → Prop} (h : Gives act Q) {w : World} {a : α}
    (hact : (act w).1 = .ok a) : Q a :=
  (h w a (act w).2 trivial (Prod.ext hact rfl)).2

/-- A node with a line and a column. -/
def Value.HasPlace (v : Value) : Prop :=
  ∃ k as, v = .node k as ∧ k.located = true ∧ isGiven as "lineno" = true ∧
    isGiven as "col_offset" = true

/-- What can stand in the place of a node, with all locations. -/
def Value.IsDone (v : Value) : Prop := v.isPiece = true ∧ v.every isSited = true

namespace Value

theorem hasPlace_of_every (hk : k.located) (h : (node k as).every isSited) :
    (node k as).HasPlace := by
  have hown := (every_node.mp h).1
  rw [isSited, hk, Bool.and_eq_true, Bool.not_true, Bool.false_or, Bool.and_eq_true] at hown
  exact ⟨k, as, rfl, hk, hown.1⟩

theorem exists_of_isGiven (h : isGiven as name) :
    ∃ u, get? as name = some u ∧ u.isNone = false := by
  unfold isGiven at h
  cases hu : get? as name with
  | none =>
    rw [hu] at h
    cases h
  | some u =>
    rw [hu] at h
    exact ⟨u, rfl, by simpa using h⟩

theorem isGiven_congr (hname : isHidden name = false)
    (h : get? (unlabelledAttrs bs) name = get? (unlabelledAttrs as) name) :
    isGiven bs name = isGiven as name := by
  rw [get?_unlabelledAttrs hname, get?_unlabelledAttrs hname] at h
  have hany (cs : Attrs) :
      isGiven cs name = ((get? cs name).map unlabelled).any (!·.isNone) := by
    unfold isGiven
    cases get? cs name <;> simp
  rw [hany, hany, h]

/-! ## Traces of invocations -/

private theorem every_of_mem_children {p : Kind → Attrs → Bool}
    (h : ∀ a ∈ as, a.2.every p) : ∀ u ∈ children k as, u.every p := by
  intro u hu
  obtain ⟨f, -, hu⟩ := mem_children.mp hu
  obtain ⟨-, hget | ⟨xs, hget, hu⟩⟩ := mem_childrenAt.mp hu
  · exact h _ (Attrs.mem_of_get? hget)
  · exact every_list.mp (h _ (Attrs.mem_of_get? hget)) u hu

private theorem foldl_copied (old : Value) (j : Kind) (names : List String) (hnames : names.Nodup)
    (bs : Attrs) :
    ∃ cs, names.foldl (fun new name =>
        match old.copiedAttr? name with
        | some v => new.setAttr name v
        | .none => new) (node j bs) = node j cs ∧
      ∀ f, get? cs f = if f ∈ names then (old.copiedAttr? f).or (get? bs f)
        else get? bs f := by
  induction names generalizing bs with
  | nil => exact ⟨bs, rfl, fun f => by simp⟩
  | cons name names ih =>
    obtain ⟨hnot, hnames⟩ := List.nodup_cons.mp hnames
    rw [List.foldl_cons]
    cases hc : old.copiedAttr? name with
    | none =>
      obtain ⟨cs, hcs, hget⟩ := ih hnames bs
      refine ⟨cs, hcs, fun f => ?_⟩
      rw [hget]
      by_cases hf : f = name
      · subst hf
        simp [hnot, hc]
      · simp [hf]
    | some u =>
      obtain ⟨cs, hcs, hget⟩ := ih hnames (Attrs.set bs name u)
      refine ⟨cs, hcs, fun f => ?_⟩
      rw [hget, Attrs.get?_set]
      by_cases hf : f = name
      · subst hf
        simp [hnot, hc]
      · simp [hf]

theorem exists_copyLocation (j : Kind) (bs : Attrs) (old : Value) :
    ∃ cs, (node j bs).copyLocation old = node j cs ∧
      (∀ f, f ∉ Kind.locationNames → get? cs f = get? bs f) ∧
      (j.located → old.isLocated → ∀ f ∈ Kind.locationNames,
        get? cs f = (old.copiedAttr? f).or (get? bs f)) := by
  unfold copyLocation
  split
  next =>
    obtain ⟨cs, hcs, hget⟩ := foldl_copied old j Kind.locationNames (by decide) bs
    refine ⟨cs, hcs, fun f hf => ?_, fun _ _ f hf => ?_⟩
    · rw [hget, if_neg hf]
    · rw [hget, if_pos hf]
  next h =>
    refine ⟨bs, rfl, fun _ _ => rfl, fun hj hold => ?_⟩
    have hboth : ((node j bs).isLocated && old.isLocated) := by
      rw [hold, Bool.and_true]
      exact hj
    exact absurd hboth h

theorem notMem_locationNames (hj : j.located) :
    ∀ f ∈ j.fieldNames, f ∉ Kind.locationNames := by
  revert hj
  cases j <;> decide

theorem exists_copyLocation_of_hasPlace {old : Value} (hj : j.located) (bs : Attrs)
    (hold : old.HasPlace) :
    ∃ cs, (node j bs).copyLocation old = node j cs ∧
      (∀ f, f ∉ Kind.locationNames → get? cs f = get? bs f) ∧
      isGiven cs "lineno" = true ∧ isGiven cs "col_offset" := by
  obtain ⟨k, as, rfl, hk, hline, hcolumn⟩ := hold
  obtain ⟨cs, hcopy, hothers, hlocation⟩ := exists_copyLocation j bs (node k as)
  have hgiven {name : String} (hname : name ∈ Kind.locationNames) (h : isGiven as name) :
      isGiven cs name = true := by
    obtain ⟨u, hu, hnone⟩ := exists_of_isGiven h
    have hcopied : (node k as).copiedAttr? name = some u := by
      simp only [copiedAttr?, attr?, hu]
      cases u with
      | none => cases hnone
      | _ => rfl
    rw [isGiven, hlocation hj hk name hname, hcopied, Option.some_or, Option.any_some, hnone]
    rfl
  exact ⟨cs, hcopy, hothers, hgiven (by decide) hline, hgiven (by decide) hcolumn⟩

private theorem every_copyLocation {old : Value} (hj : j.located) (hold : old.HasPlace)
    (hbs : showsDecorators bs) (hchildren : ∀ u ∈ children j bs, u.every isSited) :
    ((node j bs).copyLocation old).every isSited := by
  obtain ⟨cs, hcopy, hothers, hline, hcolumn⟩ := exists_copyLocation_of_hasPlace hj bs hold
  rw [hcopy, every_node]
  refine ⟨?_, ?_⟩
  · have hshows : showsDecorators cs := by
      rw [showsDecorators, hothers _ (by decide)]
      exact hbs
    rw [isSited, hshows, hline, hcolumn]
    simp
  · have hsame : children j cs = children j bs := List.flatMap_congr fun f hf => by
      rw [childrenAt, hothers f (notMem_locationNames hj f hf), ← childrenAt]
    rw [hsame]
    exact hchildren

end Value

namespace Expander

private theorem every_coverage {node name code : Value} (hnode : node.HasPlace)
    (h : coverage node name = .ok code) : code.every isSited := by
  have hbuilt {j : Kind} {cs : Attrs} (hj : j.located) (hcs : showsDecorators cs)
      (h : ∀ a ∈ cs, a.2.every isSited) :
      ((Value.node j cs).copyLocation node).every isSited = true :=
    every_copyLocation hj hnode hcs (every_of_mem_children h)
  have htext (s : String) : (str s).every isSited := throughout_other rfl rfl
  have hstore : (Value.node .store []).every isSited := by decide +kernel
  unfold coverage at h
  obtain ⟨line, -, h⟩ := except_bind_eq_ok.mp h
  obtain rfl := Except.ok.inj h
  refine every_node.mpr ⟨rfl, every_of_mem_children (List.forall_mem_singleton.mpr ?_)⟩
  refine hbuilt rfl rfl (List.forall_mem_cons.mpr ⟨?_, List.forall_mem_singleton.mpr ?_⟩)
  · refine every_list.mpr (List.forall_mem_singleton.mpr (hbuilt rfl rfl ?_))
    simp [htext, hstore]
  · refine hbuilt rfl rfl ?_
    simp [htext]

theorem gives_traced {u node name : Value} (hu : u.IsDone) (hnode : node.HasPlace) :
    Gives (traced u node name) IsDone := by
  rw [traced_eq]
  refine Ensures.ite (ensures_pure hu) ((gives_lift (Q := (every isSited · = true)) ?_).bind
    fun code hcode => (gives_label robust_isSited hcode).bind fun c hc => ensures_pure ?_)
  · exact fun code hcode => every_coverage hnode hcode
  · refine ⟨rfl, every_list.mpr fun y hy => ?_⟩
    rcases List.mem_cons.mp hy with rfl | hy
    · exact hc
    · exact every_of_mem_spliced hu.2 hy

/-! ## Checked runs -/

def outputOf (visit : Visit) (x : Expander) (i : Invocation) : Expansion Value := do
  let location := formatLocation x.filename i.call.invocation (some i.source)
  match ← x.bound? i.name with
  | none => throw (.fault (.noKey i.name.repr))
  | some b =>
    match ← Act.attempt (apply visit x b i.call) with
    | .error e => throw (e.atUse (useSite location i.call.form i.name.display))
    | .ok a => takeOutput visit x location a

theorem expand_eq (visit : Visit) (x : Expander) (i : Invocation) :
    x.expand visit i = x.outputOf visit i >>= settle visit x i.call.invocation := by
  unfold expand outputOf
  rw [bind_assoc]
  refine bind_congr fun b => ?_
  cases b with
  | none => rfl
  | some b =>
    simp only [bind_assoc]
    refine bind_congr fun a => ?_
    cases a with
    | error e => rfl
    | ok a => rfl

/-- Expands an invocation, unless the macro gives something that is not accepted. -/
def expandChecking (accepts : Value → Bool) (visit : Visit) (x : Expander) (i : Invocation) :
    Expansion Value := do
  let v ← x.outputOf visit i
  if accepts v then settle visit x i.call.invocation v
  else throw (.fault (.wrongCall "output not accepted"))

/-- Visits a tree as `visitAt` does, unless a macro gives something that is not accepted. -/
def visitChecking (accepts : Value → Bool) : Nat → Visit
  | 0 => fun _ _ => throw (.fault .tooDeep)
  | depth + 1 => fun x v =>
    x.walk (x.expandChecking accepts (visitChecking accepts depth)) (visitChecking accepts depth) v

section

variable {visit : Visit} {x : Expander} {expand : Invocation → Expansion Value}
  {children : Expansion Value}

def KeepsSites (visit : Visit) : Prop :=
  ∀ x v, v.every isSited = true → Gives (visit x v) fun r =>
    (v.isPiece = true → r.isPiece = true) ∧ r.every isSited = true

theorem fixLocations_eq {reference : Value} (h : reference.HasPlace) (v : Value) :
    ∃ line column, line.isNone = false ∧ column.isNone = false ∧
      (fixLocations .reference reference v : Expansion Value) =
        v.place .reference line column := by
  obtain ⟨k, as, rfl, -, hline, hcolumn⟩ := h
  obtain ⟨line, hline, hnone⟩ := exists_of_isGiven hline
  obtain ⟨column, hcolumn, hnone'⟩ := exists_of_isGiven hcolumn
  refine ⟨line, column, hnone, hnone', ?_⟩
  simp only [fixLocations, attr?, hline, hcolumn]

theorem gives_settle (hvisit : KeepsSites visit) {invocation : Value} (hi : invocation.HasPlace)
    (hv : v.every isOpen) : Gives (settle visit x invocation v) IsDone := by
  obtain ⟨line, column, hline, hcolumn, hfix⟩ := fixLocations_eq hi v
  unfold settle
  refine Ensures.ite (ensures_pure ⟨rfl, every_none⟩) ?_
  rw [hfix]
  refine (gives_place hline hcolumn hv).bind fun located hlocated => ?_
  have hcontexts : Gives (located.fixContexts : Expansion Value) IsDone := by
    intro w r t hw hrun
    exact ⟨trivial, isPiece_of_placeContexts hrun,
      (gives_placeContexts .load hlocated.2 w r t hw hrun).2.2⟩
  refine hcontexts.bind fun placed hplaced => ?_
  have hlabel : Gives (Act.label placed : Expansion Value) IsDone := by
    intro w r t _ hrun
    rw [Act.label_run] at hrun
    cases hrun
    exact ⟨trivial, (isPiece_labelled _ _).trans hplaced.1,
      (every_labelled robust_isSited _ _).trans hplaced.2⟩
  refine hlabel.bind fun fixed hfixed => (gives_true get).bind fun w _ => ?_
  exact ((hvisit x fixed hfixed.2).mono fun r hr => ⟨hr.1 hfixed.1, hr.2⟩).ite
    (ensures_pure hfixed)

theorem gives_expandChecking (hvisit : KeepsSites visit) {i : Invocation}
    (hi : i.call.invocation.HasPlace) :
    Gives (x.expandChecking (every isOpen) visit i) IsDone := by
  refine (gives_true _).bind fun v _ => ?_
  split
  next hv => exact gives_settle hvisit hi hv
  next => exact ensures_throw _

theorem get?_shallowCopy (as : Attrs) (k : Kind) (own : String) :
    ∃ bs, (node k as).shallowCopy own = .node k bs ∧
      ∀ f, isHidden f = false → get? bs f = get? as f := by
  refine ⟨_, rfl, fun f hf => ?_⟩
  have herase : get? (erase as Attrs.labelName) f = get? as f := by
    rw [Attrs.get?_erase, if_neg (Attrs.ne_labelName hf)]
  rw [← herase]
  have hlist (name : String) : f ≠ listLabelName name := by
    rintro rfl
    rw [Attrs.isHidden_listLabelName] at hf
    cases hf
  generalize erase as Attrs.labelName = cs
  induction cs with
  | nil => rfl
  | cons a cs ih =>
    obtain ⟨name, u⟩ := a
    have hcons (rest : Attrs) : get? ((name, u) :: rest) f =
        if f = name then some u else get? rest f := Attrs.get?_cons rest name f u
    rw [List.foldr_cons, hcons, ← ih]
    generalize cs.foldr _ [] = rest
    have hhidden (n : Int) : get? ((listLabelName name, .int n) ::
        erase rest (listLabelName name)) f = get? rest f := by
      rw [Attrs.get?_cons, if_neg (hlist name), Attrs.get?_erase, if_neg (hlist name)]
    dsimp only
    cases u with
    | list xs =>
      cases Attrs.listLabel? as name with
      | none => exact hcons rest
      | some l =>
        simp only
        split
        · exact hcons rest
        · rw [hcons, hhidden]
    | _ => exact hcons rest

theorem hasPlace_shallowCopy (h : v.HasPlace) (own : String) : (v.shallowCopy own).HasPlace := by
  obtain ⟨k, as, rfl, hk, hline, hcolumn⟩ := h
  obtain ⟨bs, hbs, hget⟩ := get?_shallowCopy as k own
  refine ⟨k, bs, hbs, hk, ?_, ?_⟩
  · rw [isGiven, hget _ isHidden_location.1]
    exact hline
  · rw [isGiven, hget _ isHidden_location.2.1]
    exact hcolumn

private theorem gives_refill (hname : isHidden name = false) (hline : name ≠ "lineno")
    (hcolumn : name ≠ "col_offset") (h : v.HasPlace) (xs : List Value) :
    Gives (v.refill name xs : Expansion Value) HasPlace := by
  obtain ⟨k, as, rfl, hk, hl, hc⟩ := h
  have hplace {bs : Attrs} {u : Value} (hbs : unlabelledAttrs bs =
      Attrs.set (unlabelledAttrs as) name u) : (node k bs).HasPlace := by
    obtain ⟨hhl, hhc, -⟩ := isHidden_location
    have hsame {f : String} (hf : isHidden f = false) (hne : name ≠ f) :
        isGiven bs f = isGiven as f :=
      isGiven_congr hf (by rw [hbs, Attrs.get?_set, if_neg hne.symm])
    exact ⟨k, bs, rfl, hk, (hsame hhl hline).trans hl, (hsame hhc hcolumn).trans hc⟩
  simp only [refill]
  split
  · exact (yields_assign hname as _).gives.bind fun bs hbs => ensures_pure (hplace hbs)
  · exact (yields_refill hname as xs).gives.bind fun bs hbs => ensures_pure (hplace hbs)

/-! ## Visits -/

/-- What comes of a node, if this is known of the node, of what its children make of it, and of the
outcome of the macros that it may invoke. -/
theorem gives_walk_node {Q : Value → Prop} (hself : Q (.node k as))
    (hrebuilt : Gives (visitChildren k as (foldAttrs (visitNode x expand visit)
      (fun v items _ => visitRest x v items) as)) Q)
    (hwhole : k = .subscript ∨ k = .name → ∀ i : Invocation, i.call.invocation = .node k as →
      Gives (expand i) Q)
    (hcopied : k ∈ [.withStmt, .functionDef, .classDef] → ∀ own (i : Invocation),
      i.call.invocation = (node k as).shallowCopy own → Gives (expand i) Q)
    (htraced : k ∈ [.withStmt, .functionDef, .classDef] → ∀ u inner name, Q u →
      x.TakenFrom k as inner → Gives (traced u inner name) Q)
    (hnone : Q .none) (hmark : ∀ u, Q u → Gives (markDone u) Q)
    (hvisit : ∀ u, Q u → Gives (visit x u) Q) : Gives (x.walk expand visit (.node k as)) Q := by
  intro w r t hw hrun
  refine ⟨trivial, ?_⟩
  cases walk_node_cases hrun with
  | stays => exact hself
  | @onward m _ _ _ _ hrun => exact (hrebuilt m r t hw hrun).2
  | brackets hk hi _ hrun => exact gives_fst (hwhole (.inl hk) _ hi) (congrArg Prod.fst hrun)
  | taken hk hi _ hu hinner hrun =>
    have hout := gives_fst (hcopied hk _ _ hi) (congrArg Prod.fst hu)
    exact gives_fst (htraced hk _ _ _ hout hinner) (congrArg Prod.fst hrun)
  | @named i m _ u _ _ hk hi _ hu hrun =>
    have hinner : (expand i { m with recursive := false }).1 = .ok u := congrArg Prod.fst hu
    have hout := gives_fst (hwhole (.inr hk) _ hi) hinner
    rcases hrun with rfl | ⟨-, hrun | hrun⟩
    · exact hnone
    · exact gives_fst (hmark u hout) (congrArg Prod.fst hrun)
    · split at hrun
      · exact gives_fst (hvisit u hout) (congrArg Prod.fst hrun)
      · rw [hrun.1]
        exact hout

/-- What holds of lists if it holds of their elements, holds of what a visit gives, if this is so for
each node. It may depend on the place. -/
theorem gives_walk_of {γ : Type} {G : γ → Value → Prop} (hspreads : ∀ c, Spreads (G c))
    (hnode : ∀ {c : γ} {k : Kind} {as : Attrs}, G c (.node k as) →
      (∀ u ∈ Value.children k as, ∀ c, G c u →
        Gives (x.walk expand visit u) fun r => r.isPiece ∧ G c r) →
      Gives (x.walk expand visit (.node k as)) fun r => r.isPiece ∧ G c r)
    {c : γ} (hv : G c v) : Gives (x.walk expand visit v) fun r =>
      (v.isPiece → r.isPiece) ∧ G c r := by
  induction v using walkInduction generalizing c with
  | node k as ih =>
    refine (hnode hv fun u hu c hc => ?_).mono fun r hr => ⟨fun _ => hr.1, hr.2⟩
    refine (ih u hu hc).mono fun r hr => ⟨hr.1 ?_, hr.2⟩
    simp [isPiece, isNode_of_mem_children hu]
  | rest v hn ih =>
    intro w r t _ hrun
    refine ⟨trivial, ?_⟩
    obtain ⟨-, rfl, -⟩ | ⟨rfl, -⟩ | ⟨xs, rs, rfl, hrs, rfl⟩ := walk_rest_cases hn hrun
    · exact ⟨fun h => h, hv⟩
    · exact ⟨fun _ => rfl, (hspreads c).none⟩
    · have hmap := Ensures.mapM (fun u hu => (ih u hu (((hspreads c).list xs).mp hv u hu)).mono
        fun r hr => hr.2) w rs t trivial hrs
      exact ⟨fun _ => isPiece_suite rs, (hspreads c).suite_iff.mpr hmap.2⟩

private theorem located_of_mem (hk : k ∈ [.withStmt, .functionDef, .classDef]) : k.located := by
  revert hk
  cases k <;> decide

private theorem hasPlace_of_takenFrom {inner : Value} (hk : k ∈ [.withStmt, .functionDef, .classDef])
    (hv : (node k as).every isSited) (h : x.TakenFrom k as inner) : inner.HasPlace := by
  cases h with
  | block hrun =>
    exact gives_fst (gives_refill (by decide +kernel) (by decide) (by decide)
      (hasPlace_of_every (located_of_mem hk) hv) _) (congrArg Prod.fst hrun)
  | @decorator decorators _ ds _ _ hk hdecorators hds hitem hremovable =>
    obtain ⟨hown, hchildren⟩ := every_node.mp hv
    have hget := get?_of_attr hk hdecorators
    obtain ⟨helements, hcandidates⟩ := elements_of_detect hds
    obtain ⟨u, name, args, hu, hcandidate⟩ := hcandidates _ hitem rfl
    obtain rfl : inner = u := Except.ok.inj hu
    cases decorators with
    | list xs =>
      obtain rfl : xs = ds.map (·.1) := Except.ok.inj helements
      have hfield : "decorator_list" ∈ k.fieldNames := by
        revert hk
        cases k <;> decide
      cases inner with
      | node j bs =>
        have hj : j.located := by
          unfold candidate? at hcandidate
          split at hcandidate
          next hj =>
            cases hj
            rfl
          next hj =>
            cases hj
            rfl
          next => cases hcandidate
        have hmem : node j bs ∈ ds.map (·.1) := List.mem_map_of_mem (f := (·.1)) hitem
        exact hasPlace_of_every hj (hchildren _ (mem_children_of_mem hfield hget hmem rfl))
      | _ => cases hcandidate
    | set xs =>
      rw [isSited, showsDecorators, hget, Bool.and_false] at hown
      cases hown
    | _ => cases hremovable

end

section

variable {visit : Visit} {x : Expander} {expand : Invocation → Expansion Value}
  (hvisit : KeepsSites visit)
  (he : ∀ i : Invocation, i.call.invocation.HasPlace → Gives (expand i) IsDone)

include hvisit he

omit hvisit he in
private theorem gives_markDone (hv : v.IsDone) : Gives (markDone v) IsDone := by
  intro w r t _ hrun
  rw [markDone, Act.label_run] at hrun
  cases hrun
  refine ⟨trivial, isPiece_labelled _ _, ?_⟩
  rw [every_labelled robust_isSited]
  exact every_node.mpr ⟨rfl, every_of_mem_children (List.forall_mem_singleton.mpr hv.2)⟩

theorem gives_walk (hv : v.every isSited) :
    Gives (x.walk expand visit v) fun r =>
      (v.isPiece → r.isPiece) ∧ r.every isSited := by
  refine gives_walk_of (G := fun _ : Unit => (every isSited · = true)) (fun _ => spreads_every)
    (fun {c k as} hv ih => ?_) (c := ()) hv
  obtain ⟨hown, hchildren⟩ := every_node.mp hv
  have hplace (hk : k = .subscript ∨ k = .name) : (node k as).HasPlace := by
    rcases hk with rfl | rfl <;> exact hasPlace_of_every rfl hv
  apply gives_walk_node ⟨rfl, hv⟩
  · refine (gives_rebuild_every robust_isSited (fun name hname u hu => ?_) hown
      fun f hf _ c hc => hchildren c (mem_children.mpr ⟨f, hf, hc⟩)).mono fun r hr => ?_
    · have hmem : u ∈ children k as := mem_children.mpr ⟨name, hname, hu⟩
      exact ih u hmem () (hchildren u hmem)
    · exact ⟨by simp [isPiece, hr.1], hr.2⟩
  · exact fun hk i hi => he i (hi ▸ hplace hk)
  · exact fun hk own i hi => he i (hi ▸ hasPlace_shallowCopy (hasPlace_of_every (located_of_mem hk) hv) own)
  · exact fun hk u inner name hu hinner => gives_traced hu (hasPlace_of_takenFrom hk hv hinner)
  · exact ⟨rfl, every_none⟩
  · exact fun _ => gives_markDone
  · exact fun u hu => (hvisit x u hu.2).mono fun r hr => ⟨hr.1 hu.1, hr.2⟩

end

theorem keepsSites_visitChecking (depth : Nat) : KeepsSites (visitChecking (every isOpen) depth) := by
  induction depth with
  | zero => exact fun _ _ _ => ensures_throw _
  | succ depth ih => exact fun x v hv => gives_walk ih (fun i hi => gives_expandChecking ih hi) hv

end Expander

/-- If all nodes of a tree that should have a location have one, so have all nodes of what an
expansion makes of it, provided that the macros give nothing that is not accepted where locations
may be open but not empty. And filling in changes no location that is there. -/
theorem expandMacros_sited {v r : Value} {bindings : Bindings} {filename : String} {w t : World}
    (hv : v.every isSited = true)
    (hmacros : (Expander.visitTo (Expander.visitChecking (every isOpen) Expander.limit)
        ⟨bindings, filename⟩ .recursive none v w).1 =
      ((⟨bindings, filename⟩ : Expander).visitFor .recursive v w).1)
    (hrun : expandMacros v bindings filename w = (.ok r, t)) :
    r.every isSited = true ∧
      ∀ (reference u s : Value) (w t : World),
        (Value.fixLocations .reference reference u : Expansion Value) w = (.ok s, t) →
          Value.KeepsPlaces u.unlabelled s.unlabelled := by
  constructor
  · obtain ⟨u, m, hu, hrun⟩ := Act.bind_eq_ok.mp hrun
    obtain ⟨s, n, hs, hrun⟩ := Act.bind_eq_ok.mp hrun
    cases hrun
    rw [hu, Expander.visitTo_recursive_run] at hmacros
    have hlabelled := (Value.every_labelled robust_isSited v w.journal.next).trans hv
    have hvisited := gives_fst (Expander.keepsSites_visitChecking Expander.limit _ _ hlabelled) hmacros
    rw [Value.every_unlabelled robust_isSited]
    exact ((Value.gives_unmarking hvisited.2).1 m s t trivial hs).2.2
  · intro reference u s w t hfix
    exact (Value.gives_fixLocations_keepsPlaces reference u w s t trivial hfix).2

/-- The place of all nodes in the trees below. -/
def firstLine : Attrs := [("lineno", .int 1), ("col_offset", .int 0)]

private def siteName (id : String) (location : Attrs) : Value :=
  .node .name ([("id", .str id), ("ctx", .node .load [])] ++ location)

def blockOf (id : String) (location : Attrs) : Value :=
  .node .withStmt ([("items", .list [.node .withItem
      [("context_expr", siteName id location), ("optional_vars", .none)]]),
    ("body", .list [.node .passStmt location])] ++ location)

def giving (v : Value) : Macro := ⟨.made 1, "m", "m", none, false, false, .eager fun _ => .give v⟩

/-- A macro that gives a block, without locations, and the macro that this block invokes. -/
def nesting : Bindings := [("m", .transformer (giving (blockOf "n" []))), ("n", .transformer Expander.echo)]

theorem exists_of_isOk {out : Except Error α × World} (h : out.1.isOk) :
    ∃ a t, out = (.ok a, t) := by
  obtain ⟨e | a, t⟩ := out
  · cases h
  · exact ⟨a, t, rfl⟩

theorem expandMacros_sited_nesting :
    (blockOf "m" firstLine).every isSited = true ∧
      ∃ r t, expandMacros (blockOf "m" firstLine) nesting "example.py" (.start (.ofQueue [])) =
        (.ok r, t) ∧ r.every isSited = true := by
  have hv : (blockOf "m" firstLine).every isSited = true := by decide +kernel
  have hok : (expandMacros (blockOf "m" firstLine) nesting "example.py"
      (.start (.ofQueue []))).1.isOk = true := by
    decide +kernel
  obtain ⟨r, t, hrun⟩ := exists_of_isOk hok
  refine ⟨hv, r, t, hrun, (expandMacros_sited hv ?_ hrun).1⟩
  cbv

def sitedBrackets : Value :=
  .node .subscript ([("value", siteName "m" firstLine),
    ("slice", .node .index [("value", siteName "x" firstLine)]), ("ctx", .node .load [])] ++ firstLine)

def listInList : Value :=
  .node .list [("elts", .list [.list [siteName "y" []]]), ("ctx", .node .load [])]

/-- A class with its decorator in a set. The decorator has a line, but no column. -/
def decoratedBySet : Value :=
  .node .classDef [("name", .str "C"), ("bases", .list []), ("keywords", .list []),
    ("body", .list [.node .passStmt []]),
    ("decorator_list", .set [siteName "n" [("lineno", .int 1)]])]

/-- Nodes in a list in a list are not met, and keep no location. Nor are decorators in a set: if one
of them has a line but no column, so has the code that is there for its line. -/
theorem expandMacros_listInList :
    sitedBrackets.every isSited = true ∧
    ((expandMacros sitedBrackets [("m", .transformer (giving listInList))] "example.py"
      (.start (.ofQueue []))).1.toOption.bind
        (Value.at? [.field "elts", .item 0, .item 0])).map
          (fun u => (u.isLocated, u.hasAttr "lineno")) = some (true, false) ∧
    (blockOf "m" firstLine).every isSited = true ∧
    ((expandMacros (blockOf "m" firstLine) [("m", .transformer (giving decoratedBySet)),
      ("n", .transformer Expander.echo)] "example.py" (.start (.ofQueue []))).1.toOption.bind
        (Value.at? [.item 1])).map
          (fun u => (u.isLocated, u.hasAttr "lineno", u.hasAttr "col_offset")) =
            some (true, true, false) := by
  decide +kernel

end TreeMacros
