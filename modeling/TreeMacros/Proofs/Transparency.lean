import TreeMacros.Proofs.Detection
import TreeMacros.Proofs.Grammar

/-!
# Trees that invoke nothing

A visit to a well-formed tree in which no name is bound gives the tree back, calls no macro and
warns of nothing, unless it looks for an invocation where a name is sliced: there it reads an index
that is not to be found.
-/

namespace TreeMacros

open Value hiding none set
open Attrs (get? isHidden)
open Act (bind_ok get_run)

variable {xs : List Value} {k : Kind} {as : Attrs} {name : String} {v : Value}

namespace Act

variable {σ α β : Type}

/-- The action leaves the state as it is. It gives `a` if `b` holds, and else fails with an error
of which `p` holds: it misses an attribute, if nothing else is said. -/
def Reads (act : Act σ α) (s : σ) (b : Bool) (a : α)
    (p : Error → Prop := fun e => e.kind = .attributeError) : Prop :=
  if b then act s = (.ok a, s) else ∃ e, p e ∧ act s = (.error e, s)

variable {act : Act σ α} {s : σ} {a : α} {p : Error → Prop}

theorem Reads.of_run (h : act s = (.ok a, s)) : Reads act s true a p := h

theorem Reads.bind {f : α → Act σ β} {b c : Bool} {r : β} (h : Reads act s b a p)
    (hf : b → Reads (f a) s c r p) : Reads (act >>= f) s (b && c) r p := by
  cases b with
  | true =>
    have hrun : (act >>= f) s = f a s := bind_ok h
    simpa only [Reads, hrun, Bool.true_and] using hf rfl
  | false =>
    obtain ⟨e, he, h⟩ := h
    exact ⟨e, he, bind_error h⟩

theorem Reads.after {f : α → Act σ β} {c : Bool} {r : β} (h : act s = (.ok a, s))
    (hf : Reads (f a) s c r p) : Reads (act >>= f) s c r p := by
  simpa using (Reads.of_run h).bind fun _ => hf

theorem Reads.before {f : α → Act σ β} {b : Bool} {r : β} (h : Reads act s b a p)
    (hf : f a s = (.ok r, s)) : Reads (act >>= f) s b r p := by
  simpa using h.bind fun _ => Reads.of_run hf

theorem Reads.mapM {γ : Type} {f : γ → Act σ β} {b : γ → Bool} {g : γ → β} {xs : List γ}
    (h : ∀ x ∈ xs, Reads (f x) s (b x) (g x) p) :
    Reads (xs.mapM f) s (xs.all b) (xs.map g) p := by
  induction xs with
  | nil => exact .of_run rfl
  | cons x xs ih =>
    rw [List.mapM_cons, List.all_cons]
    exact (h x (by simp)).bind fun _ => (ih fun y hy => h y (by simp [hy])).before rfl

end Act

open Act (Reads)

namespace Value

/-! ## Children that stay -/

section

variable {onNode : Kind → Attrs → Parts (Expansion Value) → Expansion Value}
  {onRest : Value → List (Item (Expansion Value)) → List (Item (Expansion Value)) → Expansion Value}
  {w : World} {b : Value → Bool} {p : Error → Prop}

private theorem reads_rebuildList
    (h : ∀ u ∈ xs, u.isNode → Reads (fold onNode onRest u) w (b u) u p) :
    Reads (rebuildList (·.result) (foldItems onNode onRest xs)) w
      ((xs.filter (·.isNode)).all b) xs p := by
  induction xs with
  | nil => exact .of_run rfl
  | cons u xs ih =>
    have htail := ih fun v hv => h v (by simp [hv])
    rw [foldItems]
    cases hu : u.isNode with
    | true =>
      rw [rebuildList_cons_node _ _ hu, List.filter_cons_of_pos hu, List.all_cons]
      refine (h u (by simp) hu).bind fun _ => Reads.after (a := [u]) ?_ (htail.before rfl)
      cases u with
      | node => rfl
      | _ => cases hu
    | false =>
      rw [rebuildList_cons_other _ _ hu, List.filter_cons_of_neg (by simp [hu])]
      exact htail.before rfl

theorem reads_rebuildAttr_node {here : Bool} (hl : (node k as).hasLabels)
    (hn : v.isNode) (hv : get? as name = some v)
    (h : Reads (fold onNode onRest v) w here v p) :
    Reads (rebuildAttr (·.result) as name (foldPart onNode onRest v)) w here as p := by
  cases v with
  | node => exact h.before (Act.assign_of_get? hl rfl hv w)
  | _ => cases hn

private theorem reads_rebuildAttr (hl : (node k as).hasLabels) (hv : get? as name = some v)
    (h : ∀ u ∈ childrenAt as name, Reads (fold onNode onRest u) w (b u) u p) :
    Reads (rebuildAttr (·.result) as name (foldPart onNode onRest v)) w
      ((childrenAt as name).all b) as p := by
  cases v with
  | node c bs =>
    have hc : childrenAt as name = [node c bs] := by simp [childrenAt, hv]
    rw [hc, List.all_cons, List.all_nil, Bool.and_true]
    exact reads_rebuildAttr_node hl rfl hv (h (node c bs) (by simp [hc]))
  | list xs =>
    have hc : childrenAt as name = xs.filter (·.isNode) := by simp [childrenAt, hv]
    rw [hc]
    exact (reads_rebuildList fun u hu hn => h u (by simp [hc, hu, hn])).before
      (Act.refill_of_get? hl hv w)
  | _ =>
    have hc : childrenAt as name = [] := by simp [childrenAt, hv]
    rw [hc]
    exact Reads.of_run rfl

theorem reads_rebuild (hl : (node k as).hasLabels)
    (h : ∀ u ∈ children k as, Reads (fold onNode onRest u) w (b u) u p) :
    Reads (rebuild (fun _ (i : Item (Expansion Value)) => i.result) k as
      (foldAttrs onNode onRest as)) w ((children k as).all b) (node k as) p := by
  have hgo : ∀ names, (∀ name ∈ names, name ∈ k.fieldNames) →
      Reads (rebuild.go (fun _ (i : Item (Expansion Value)) => i.result)
        (foldAttrs onNode onRest as) names as) w
        (names.all fun name => (childrenAt as name).all b) as p := by
    intro names hnames
    induction names with
    | nil => exact .of_run rfl
    | cons name names ih =>
      have htail := ih fun n hn => hnames n (by simp [hn])
      rw [rebuild.go, lookup_foldAttrs, List.all_cons]
      cases hv : get? as name with
      | none => simpa [childrenAt, hv] using htail
      | some v =>
        refine (reads_rebuildAttr hl hv fun u hu => h u ?_).bind fun _ => htail
        exact mem_children.mpr ⟨name, hnames name (by simp), hu⟩
  rw [children, List.all_flatMap]
  exact (hgo _ fun _ hn => hn).before rfl

end

/-! ## Where invocations are looked for -/

/-- The elements of an attribute that holds a list. -/
def itemsAt (as : Attrs) (name : String) : List Value :=
  match get? as name with
  | some (list xs) => xs
  | _ => []

/-- A name in brackets that hold something else than an index. -/
def slicesName : Value → Bool
  | node .subscript as =>
    match get? as "value", get? as "slice" with
    | some head, some brackets => head.isKind .name && !brackets.isKind .index
    | _, _ => false
  | _ => false

/-- The trees at a node that may invoke macros: what stands before brackets, the headers of a
block, and decorators. -/
def heads (k : Kind) (as : Attrs) : List Value :=
  match k with
  | .subscript => (get? as "value").toList
  | .withStmt => (itemsAt as "items").filterMap fun item => get? item.attrs "context_expr"
  | .functionDef | .classDef => itemsAt as "decorator_list"
  | _ => []

/-- Nowhere in the tree is a name sliced where an invocation is looked for. -/
def slicesNoHead (v : Value) : Bool :=
  v.throughout (fun _ => true) fun k as => (heads k as).all (!·.slicesName)

theorem itemsAt_unlabelledAttrs (h : isHidden name = false) (as : Attrs) :
    itemsAt (unlabelledAttrs as) name = (itemsAt as name).map unlabelled := by
  unfold itemsAt
  rw [get?_unlabelledAttrs h]
  rcases get? as name with _ | v
  · rfl
  · cases v <;> simp [unlabelled, unlabelledItems_eq]

theorem slicesName_unlabelled (v : Value) : v.unlabelled.slicesName = v.slicesName := by
  cases v with
  | node k as =>
    by_cases hk : k = .subscript
    · subst hk
      simp only [unlabelled, slicesName, get?_unlabelledAttrs (show isHidden "value" = false
        from Kind.isHidden_of_mem (k := .subscript) (by decide)),
        get?_unlabelledAttrs (show isHidden "slice" = false
        from Kind.isHidden_of_mem (k := .subscript) (by decide))]
      cases get? as "value" <;> cases get? as "slice" <;> simp
    · rw [unlabelled, slicesName.eq_def, slicesName.eq_def]
      simp [hk]
  | _ => simp [unlabelled, slicesName]

theorem heads_unlabelledAttrs (k : Kind) (as : Attrs) :
    heads k (unlabelledAttrs as) = (heads k as).map unlabelled := by
  unfold heads
  split
  · rw [get?_unlabelledAttrs (Kind.isHidden_of_mem (k := .subscript) (by decide))]
    cases get? as "value" <;> rfl
  · rw [itemsAt_unlabelledAttrs (Kind.isHidden_of_mem (k := .withStmt) (by decide)),
      List.filterMap_map, List.map_filterMap]
    refine List.filterMap_congr fun item _ => ?_
    have hc : isHidden "context_expr" = false :=
      Kind.isHidden_of_mem (k := .withItem) (by decide)
    cases item with
    | node => simp [unlabelled, attrs, get?_unlabelledAttrs hc]
    | _ => simp [unlabelled, attrs, get?]
  · exact itemsAt_unlabelledAttrs (Kind.isHidden_of_mem (k := .classDef) (by decide)) as
  · exact itemsAt_unlabelledAttrs (Kind.isHidden_of_mem (k := .classDef) (by decide)) as
  · rfl

theorem slicesNoHead_labelled (v : Value) (n : Nat) :
    (v.labelled n).1.slicesNoHead = v.slicesNoHead := by
  refine throughout_labelled (fun k as => ?_) v n
  rw [heads_unlabelledAttrs, List.all_map]
  simp only [Function.comp_def, slicesName_unlabelled]

end Value

namespace Expander

variable {x : Expander} {w : World} {k : Kind} {as : Attrs} {v : Value}

/-- The local condition that a node is not a bound name. -/
def isUnbound (x : Expander) (w : World) (k : Kind) (as : Attrs) : Bool :=
  k != .name ||
    match get? as "id" with
    | some (.str s) => (x.find? w s).isNone
    | _ => true

/-- No name in the tree is bound. -/
def bindsNone (x : Expander) (w : World) (v : Value) : Bool :=
  v.throughout (fun _ => true) (x.isUnbound w)

/-- What the lemmas below are about: well-formed trees without bound names. -/
private structure Quiet (x : Expander) (w : World) (v : Value) : Prop where
  isNode : v.isNode = true
  conforming : v.throughout (fun _ => true) Kind.conforms = true
  unbound : x.bindsNone w v = true

namespace Quiet

private theorem conforms (h : Quiet x w (.node k as)) : k.conforms as :=
  (throughout_node.mp h.conforming).1

private theorem child (h : Quiet x w (.node k as)) {u : Value} (hu : u ∈ children k as) :
    Quiet x w u :=
  ⟨isNode_of_mem_children hu, (throughout_node.mp h.conforming).2 rfl u hu,
    (throughout_node.mp h.unbound).2 rfl u hu⟩

private theorem get? (h : Quiet x w (.node k as)) (name : String) (c : Category)
    (hf : (Field.req name, .one c) ∈ k.fields.zip k.contents) :
    ∃ u, get? as name = some u ∧ u.isOf c ∧ Quiet x w u := by
  obtain ⟨u, hu, hc⟩ := Kind.exists_of_conforms h.conforms _ _ hf
  have hfield : name ∈ k.fieldNames :=
    List.mem_map_of_mem (f := Field.name) (List.of_mem_zip hf).1
  obtain ⟨j, bs, rfl, -⟩ := exists_of_isOf hc
  exact ⟨_, hu, hc, h.child (mem_children_of_get? hfield hu rfl)⟩

private theorem items (h : Quiet x w (.node k as)) (name : String) (c : Category)
    (hf : (Field.req name, .many c) ∈ k.fields.zip k.contents) :
    ∃ xs, Attrs.get? as name = some (.list xs) ∧ ∀ u ∈ xs, u.isOf c ∧ Quiet x w u := by
  obtain ⟨u, hu, hc⟩ := Kind.exists_of_conforms h.conforms _ _ hf
  have hfield : name ∈ k.fieldNames :=
    List.mem_map_of_mem (f := Field.name) (List.of_mem_zip hf).1
  obtain ⟨xs, rfl, hxs⟩ := exists_of_admits_many hc
  refine ⟨xs, hu, fun u hmem => ?_⟩
  obtain ⟨j, bs, rfl, -⟩ := exists_of_isOf (hxs u hmem)
  exact ⟨hxs _ hmem, h.child (mem_children_of_mem hfield hu hmem rfl)⟩

private theorem id (h : Quiet x w (.node .name as)) :
    ∃ s, (node .name as).attr "id" = .ok (.str s) ∧ x.known? w s = none := by
  obtain ⟨u, hu, hc⟩ := Kind.exists_of_conforms h.conforms "id" .text (by decide)
  obtain ⟨s, rfl⟩ := exists_of_isText hc
  have hun := (throughout_node.mp h.unbound).1
  simp only [isUnbound, hu] at hun
  exact ⟨s, attr_of_get? hu, known?_of_find? (by simpa using hun)⟩

end Quiet

/-! ## Detection -/

private theorem brackets_attr (h : Quiet x w v) (hc : v.isOf .slice) :
    if v.isKind .index then ∃ u, v.attr "value" = .ok u ∧ Quiet x w u
    else ∃ e, e.kind = .attributeError ∧ v.attr "value" = .error e := by
  obtain ⟨k, as, rfl, hk⟩ := exists_of_isOf hc
  by_cases hi : k = .index
  · subst hi
    obtain ⟨u, hu, -, hq⟩ := h.get? "value" .expr (by decide)
    exact ⟨u, attr_of_get? hu, hq⟩
  · have hnot : k = .slice ∨ k = .extSlice := by
      cases k <;> first | (cases hk; done) | simp_all
    have hget : get? as "value" = none := by
      refine Kind.get?_eq_none_of_conforms h.conforms ?_
      rcases hnot with rfl | rfl <;> decide +kernel
    have hdefault : k.default? "value" = false := by rcases hnot with rfl | rfl <;> decide
    have hattr : (node k as).attr? "value" = none := by
      rcases hnot with rfl | rfl <;> simp [attr?, hget, hdefault]
    rw [if_neg (by simpa [isKind, kind?] using hi)]
    exact ⟨.fault (.noAttribute _ _), rfl, by rw [attr, hattr]⟩

private theorem exists_arguments (h : Quiet x w v) :
    ∃ args, (if v.isKind .tuple then v.attr "elts" else .ok (.list [v])) = .ok args := by
  by_cases ht : v.isKind .tuple
  · obtain ⟨as, rfl⟩ := exists_of_isKind ht
    obtain ⟨xs, hxs, -⟩ := h.items "elts" .expr (by decide)
    exact ⟨.list xs, by rw [if_pos ht, attr_of_get? hxs]⟩
  · exact ⟨.list [v], by rw [if_neg ht]⟩

/-- The name and the arguments of a candidate in a quiet tree: they can be read unless the
candidate slices a name, and the name is not bound. -/
private theorem reads_candidate? (h : Quiet x w v) :
    ∃ c, Reads (liftM v.candidate? : Expansion _) w (!v.slicesName) c ∧
      ∀ name args, c = some (name, args) → ∃ s, name = .str s ∧ x.known? w s = none := by
  obtain ⟨k, as, rfl⟩ : ∃ k as, v = .node k as := by
    cases v with
    | node k as => exact ⟨k, as, rfl⟩
    | _ => cases h.isNode
  by_cases hname : k = .name
  · subst hname
    obtain ⟨s, hs, hknown⟩ := h.id
    refine ⟨some (.str s, .list []), ?_, ?_⟩
    · have hc : (node .name as).candidate? = .ok (some (.str s, .list [])) := by
        simp [candidate?, kind?, hs, bind, Except.bind, pure, Except.pure]
      rw [hc]
      exact .of_run rfl
    · rintro name args hc
      cases hc
      exact ⟨s, rfl, hknown⟩
  by_cases hsub : k = .subscript
  · subst hsub
    obtain ⟨head, hhead, -, hqhead⟩ := h.get? "value" .expr (by decide)
    obtain ⟨brackets, hbrackets, hslice, hqbrackets⟩ := h.get? "slice" .slice (by decide)
    have hb := brackets_attr hqbrackets hslice
    by_cases hn : head.isKind .name
    · obtain ⟨bs, rfl⟩ := exists_of_isKind hn
      obtain ⟨s, hs, hknown⟩ := hqhead.id
      by_cases hi : brackets.isKind .index
      · rw [if_pos hi] at hb
        obtain ⟨u, hu, hqu⟩ := hb
        obtain ⟨args, hargs⟩ := exists_arguments hqu
        refine ⟨some (.str s, args), ?_, ?_⟩
        · have hc : (node .subscript as).candidate? = .ok (some (.str s, args)) := by
            simp only [candidate?, kind?, attr_of_get? hhead, attr_of_get? hbrackets,
              bind, Except.bind, hn, ↓reduceIte, hu, hs, pure, Except.pure]
            split <;> simp_all
          have hsl : (node .subscript as).slicesName = false := by
            simp [slicesName, hhead, hbrackets, hi]
          rw [hc, hsl]
          exact .of_run rfl
        · rintro name args hc
          cases hc
          exact ⟨s, rfl, hknown⟩
      · rw [if_neg hi] at hb
        obtain ⟨e, he, hb⟩ := hb
        refine ⟨none, ?_, by simp⟩
        have hc : (node .subscript as).candidate? = .error e := by
          simp only [candidate?, kind?, attr_of_get? hhead, attr_of_get? hbrackets,
            bind, Except.bind, hn, ↓reduceIte, hb]
        have hsl : (node .subscript as).slicesName := by
          simp [slicesName, hhead, hbrackets, hn, hi]
        rw [hc, hsl]
        exact ⟨e, he, rfl⟩
    · refine ⟨none, ?_, by simp⟩
      have hc : (node .subscript as).candidate? = .ok none := by
        simp [candidate?, kind?, attr_of_get? hhead, bind, Except.bind, hn, pure,
          Except.pure]
      have hsl : (node .subscript as).slicesName = false := by
        simp [slicesName, hhead, hbrackets, hn]
      rw [hc, hsl]
      exact .of_run rfl
  · refine ⟨none, ?_, by simp⟩
    have hc : (node k as).candidate? = .ok none := by
      unfold candidate?
      simp only [kind?]
      split <;> simp_all
      rfl
    have hs : (node k as).slicesName = false := by
      unfold slicesName
      split <;> simp_all
    rw [hc, hs]
    exact .of_run rfl

private theorem reads_isMacroItem {form : Form} {item : Value}
    (hc : itemCandidate item form = .ok v) (h : Quiet x w v) :
    Reads (x.isMacroItem form item) w (!v.slicesName) false := by
  obtain ⟨c, hread, hunbound⟩ := reads_candidate? h
  unfold isMacroItem
  refine Reads.after (a := v) (by rw [hc]; rfl) (hread.before ?_)
  cases c with
  | none => rfl
  | some c =>
    obtain ⟨name, args⟩ := c
    obtain ⟨s, rfl, hknown⟩ := hunbound name args rfl
    simp only
    rw [bind_ok (invocable?_str x s w), hknown]
    rfl

private theorem reads_detect {form : Form} {b : Value → Bool}
    (h : ∀ item ∈ xs, ∃ v, itemCandidate item form = .ok v ∧ Quiet x w v ∧
      b item = !v.slicesName) :
    Reads (x.detect form (.list xs)) w (xs.all b) (xs.map (·, false)) := by
  unfold detect
  refine Reads.after (a := xs) rfl (Reads.mapM fun item hitem => ?_)
  obtain ⟨v, hc, hq, hb⟩ := h item hitem
  rw [hb]
  exact (reads_isMacroItem hc hq).before rfl

private theorem popFirst_map_false (xs : List Value) : popFirst (xs.map (·, false)) = none := by
  induction xs with
  | nil => rfl
  | cons v xs ih => simp [popFirst, ih]

private theorem popLast_map_false (xs : List Value) : popLast (xs.map (·, false)) = none := by
  rw [popLast, ← List.map_reverse, popFirst_map_false]
  rfl

/-! ## Visits -/

section

variable {expand : Invocation → Expansion Value} {children : Expansion Value} {b : Bool}

private theorem reads_visitSubscript (h : Quiet x w (.node .subscript as))
    (hr : Reads children w b (.node .subscript as)) :
    Reads (visitSubscript x expand (.node .subscript as) children) w
      ((heads .subscript as).all (!·.slicesName) && b) (.node .subscript as) := by
  obtain ⟨head, hhead, -, hq⟩ := h.get? "value" .expr (by decide)
  obtain ⟨c, hread, hunbound⟩ := reads_candidate? hq
  have hheads : (heads .subscript as).all (!·.slicesName) = !head.slicesName := by
    simp [heads, hhead]
  rw [hheads, visitSubscript]
  refine Reads.after (a := head) (by rw [attr_of_get? hhead]; rfl) (hread.bind fun _ => ?_)
  cases c with
  | none => exact hr
  | some c =>
    obtain ⟨name, args⟩ := c
    obtain ⟨s, rfl, hknown⟩ := hunbound name args rfl
    exact Reads.after (isCall_of_unknown hknown args .expr) hr

private theorem reads_visitWith (h : Quiet x w (.node .withStmt as))
    (hr : Reads children w b (.node .withStmt as)) :
    Reads (visitWith x expand (.node .withStmt as) children) w
      ((heads .withStmt as).all (!·.slicesName) && b) (.node .withStmt as) := by
  obtain ⟨xs, hxs, hitems⟩ := h.items "items" .withItem (by decide)
  have hdetect : Reads (x.detect .block (.list xs)) w ((heads .withStmt as).all (!·.slicesName))
      (xs.map (·, false)) := by
    simp only [heads, itemsAt, hxs, List.all_filterMap]
    refine reads_detect fun item hitem => ?_
    obtain ⟨hof, hq⟩ := hitems item hitem
    obtain ⟨k, bs, rfl, hk⟩ := exists_of_isOf hof
    obtain rfl : k = .withItem := by cases k <;> first | rfl | cases hk
    obtain ⟨u, hu, -, hqu⟩ := hq.get? "context_expr" .expr (by decide)
    exact ⟨u, attr_of_get? hu, hqu, by simp [attrs, hu]⟩
  rw [visitWith]
  refine Reads.after (a := .list xs) (by rw [attr_of_get? hxs]; rfl) (hdetect.bind fun _ => ?_)
  rw [popFirst_map_false]
  exact hr

private theorem reads_visitDecorated (hk : k = .functionDef ∨ k = .classDef)
    (h : Quiet x w (.node k as)) (hr : Reads children w b (.node k as)) :
    Reads (visitDecorated x expand (.node k as) children) w
      ((heads k as).all (!·.slicesName) && b) (.node k as) := by
  obtain ⟨xs, hxs, hitems⟩ :=
    h.items "decorator_list" .expr (by
      rcases hk with rfl | rfl <;> decide)
  have hheads : heads k as = xs := by
    rcases hk with rfl | rfl <;> simp [heads, itemsAt, hxs]
  have hdetect : Reads (x.detect .decorator (.list xs)) w (xs.all (!·.slicesName))
      (xs.map (·, false)) :=
    reads_detect fun item hitem => ⟨item, rfl, (hitems item hitem).2, rfl⟩
  rw [visitDecorated, hheads]
  refine Reads.after (a := .list xs) (by rw [attr_of_get? hxs]; rfl) (hdetect.bind fun _ => ?_)
  rw [popLast_map_false]
  exact hr

private theorem reads_visitName {visit : Visit} (h : Quiet x w (.node .name as)) :
    Reads (visitName x expand visit (.node .name as)) w true (.node .name as) := by
  obtain ⟨s, hs, hknown⟩ := h.id
  rw [visitName]
  exact Reads.after (a := .str s) (by rw [hs]; rfl)
    (Reads.after (isCall_of_unknown hknown .none .name) (.of_run rfl))

end

private theorem slicesNoHead_of_mem_children_name (h : Quiet x w (.node .name as)) {u : Value}
    (hu : u ∈ children .name as) : u.slicesNoHead := by
  obtain ⟨name, hname, hu⟩ := mem_children.mp hu
  have hnames : name ∈ ["id", "ctx"] := hname
  simp only [List.mem_cons, List.not_mem_nil, or_false] at hnames
  rcases hnames with rfl | rfl
  · obtain ⟨v, hv, hc⟩ := Kind.exists_of_conforms h.conforms "id" .text (by decide)
    obtain ⟨s, rfl⟩ := exists_of_isText hc
    simp [childrenAt, hv] at hu
  · obtain ⟨v, hv, hc, -⟩ := h.get? "ctx" .context (by decide)
    obtain ⟨k, bs, rfl, hk⟩ := exists_of_isOf hc
    obtain rfl : u = .node k bs := by simpa [childrenAt, hv] using hu
    have hnone : k.fieldNames = [] ∧ heads k bs = [] := by
      cases k <;> first | (cases hk; done) | exact ⟨rfl, rfl⟩
    simp [slicesNoHead, throughout_node_eq, children, hnone.1, hnone.2]

theorem walk_rest (expand : Invocation → Expansion Value) (visit : Visit)
    (hn : v.isNode = false) :
    x.walk expand visit v = visitRest x v (foldPart (visitNode x expand visit)
      (fun v items _ => visitRest x v items) v).items := by
  cases v with
  | node => cases hn
  | _ => rfl

theorem walk_of_isIdle (expand : Invocation → Expansion Value) (visit : Visit) (v : Value)
    (h : x.isIdle w) : x.walk expand visit v w = (.ok v, w) := by
  cases hn : v.isNode with
  | true =>
    cases v with
    | node k as =>
      rw [walk, fold_node, visitNode, bind_ok (get_run w), h]
      rfl
    | _ => cases hn
  | false =>
    rw [walk_rest expand visit hn]
    unfold visitRest
    rw [bind_ok (get_run w), h]
    rfl

private theorem reads_walk (expand : Invocation → Expansion Value) (visit : Visit)
    (hl : v.hasLabels) (h : Quiet x w v) (hidle : x.isIdle w = false) :
    Reads (x.walk expand visit v) w v.slicesNoHead v := by
  induction v using walkInduction with
  | rest v hn =>
    rw [h.isNode] at hn
    cases hn
  | node k as ih =>
    have hr : Reads (visitChildren k as (foldAttrs (visitNode x expand visit)
        (fun v items _ => visitRest x v items) as)) w
        ((children k as).all slicesNoHead) (.node k as) :=
      reads_rebuild hl fun u hu =>
        ih u hu (hasLabels_of_mem_children hl hu) (h.child hu)
    have hhere : (node k as).slicesNoHead =
        ((heads k as).all (!·.slicesName) && (children k as).all slicesNoHead) := by
      rw [slicesNoHead, throughout_node_eq]
      rfl
    have hdone : k ≠ .done := by
      rintro rfl
      have hnot : Kind.done.conforms as = false := rfl
      rw [h.conforms] at hnot
      cases hnot
    rw [walk, fold_node, visitNode, hhere]
    refine Reads.after (get_run w) ?_
    simp only [hidle, beq_eq_false_iff_ne.mpr hdone, Bool.or_false, Bool.false_eq_true,
      ↓reduceIte]
    split
    · exact reads_visitSubscript h hr
    · exact reads_visitWith h hr
    · exact reads_visitDecorated (.inl rfl) h hr
    · exact reads_visitDecorated (.inr rfl) h hr
    · have hchildren : (children .name as).all slicesNoHead :=
        List.all_eq_true.mpr fun u hu => slicesNoHead_of_mem_children_name h hu
      rw [hchildren]
      exact reads_visitName h
    · obtain ⟨u, hu, -⟩ := Kind.exists_of_conforms h.conforms "value" .literal (by decide)
      exact Reads.after (a := u) (by rw [attr_of_get? hu]; rfl) hr
    · have hheads : heads k as = [] := by
        unfold heads
        split <;> simp_all
      rw [hheads]
      exact hr

private theorem quiet_labelled (hv : v.wellFormed) (hb : x.bindsNone w v) :
    Quiet x (w.labelling v) (v.labelled w.journal.next).1 := by
  obtain ⟨hn, hc⟩ := Bool.and_eq_true_iff.mp hv
  refine ⟨?_, ?_, ?_⟩
  · rw [← isNode_unlabelled, unlabelled_labelled, isNode_unlabelled, hn]
  · rw [throughout_labelled Kind.conforms_unlabelledAttrs, hc]
  · refine (throughout_labelled (fun k as => ?_) v _).trans hb
    unfold isUnbound
    rw [get?_unlabelledAttrs (Kind.isHidden_of_mem (k := .name) (by decide))]
    rcases get? as "id" with _ | u
    · rfl
    · cases u <;> simp [unlabelled]

theorem visitTree_none_run (visit : Visit) (x : Expander) (v : Value) (w : World) :
    visitTree visit x none v w = visit x (v.labelled w.journal.next).1 (w.labelling v) := by
  rw [visitTree, bind_ok (Act.label_run v w)]
  generalize visit x _ = act
  match h : act (w.labelling v) with
  | (.ok r, t) =>
    rw [bind_ok h]
    rfl
  | (.error e, t) => exact Act.bind_error h

/-- A visit to a well-formed tree without bound names does not depend on what macros do. If no
macros are in sight, or no name is sliced where an invocation is looked for, it gives the tree back
and changes nothing but labels; and else it misses an attribute. -/
theorem visitFor_of_bindsNone (x : Expander) (w : World) (v : Value) (hv : v.wellFormed = true)
    (hb : x.bindsNone w v = true) :
    if x.isIdle w || v.slicesNoHead then
      ∃ r j, x.visitFor .current v w = (.ok r, { w with journal := j }) ∧
        r.unlabelled = v.unlabelled ∧
        ∀ expand visit, visitTo (fun y u => y.walk expand visit u) x .current none v w =
          x.visitFor .current v w
    else
      ∃ e j, x.visitFor .current v w = (.error e, { w with journal := j }) ∧
        e.kind = .attributeError := by
  have hrun (visit : Visit) : visitTo visit x .current none v w =
      visit x (v.labelled w.journal.next).1 (w.labelling v) := visitTree_none_run visit x v w
  have hq := quiet_labelled hv hb
  have hwalk (expand visit) : Reads (x.walk expand visit (v.labelled w.journal.next).1)
      (w.labelling v) (x.isIdle w || v.slicesNoHead) (v.labelled w.journal.next).1 := by
    cases hidle : x.isIdle w with
    | true => exact walk_of_isIdle expand visit _ hidle
    | false =>
      rw [← Value.slicesNoHead_labelled v w.journal.next]
      exact reads_walk expand visit (Value.hasLabels_labelled v _) hq hidle
  cases hb : x.isIdle w || v.slicesNoHead with
  | true =>
    rw [hb] at hwalk
    refine ⟨_, _, (hrun _).trans (hwalk _ _), Value.unlabelled_labelled v _, fun expand visit => ?_⟩
    rw [hrun, hwalk, visitFor, hrun]
    exact (hwalk _ _).symm
  | false =>
    rw [hb] at hwalk
    obtain ⟨e, he, hfail⟩ := hwalk _ _
    exact ⟨e, _, (hrun _).trans hfail, he⟩

/-- A macro that gives back what it is called with. -/
def echo : Macro := ⟨.made 0, "m", "m", none, false, false, .eager fun call => .give call.tree⟩

/-- An expander with that macro, bound to the name `m`. -/
def withEcho : Expander := ⟨[("m", .transformer echo)], "example.py"⟩

def sliced : Value :=
  .node .subscript
    [("value", .node .name [("id", .str "a"), ("ctx", .node .load [])]),
     ("slice", .node .slice [("lower", .node .constant [("value", .int 1)])]),
     ("ctx", .node .load [])]

def slicedHead : Value :=
  .node .subscript
    [("value", sliced),
     ("slice", .node .index [("value", .node .constant [("value", .int 0)])]),
     ("ctx", .node .load [])]

theorem visitFor_sliced :
    sliced.wellFormed = true ∧ withEcho.bindsNone (.start (.ofQueue [])) sliced = true ∧
      ∃ r j, withEcho.visitFor .current sliced (.start (.ofQueue [])) =
          (.ok r, { World.start (.ofQueue []) with journal := j }) ∧
        r.unlabelled = sliced.unlabelled := by
  have hv : sliced.wellFormed = true := by decide +kernel
  have hb : withEcho.bindsNone (.start (.ofQueue [])) sliced = true := by decide +kernel
  have hs : (withEcho.isIdle (.start (.ofQueue [])) || sliced.slicesNoHead) = true := by
    decide +kernel
  have h := visitFor_of_bindsNone withEcho (.start (.ofQueue [])) sliced hv hb
  rw [if_pos hs] at h
  obtain ⟨r, j, hrun, hr, -⟩ := h
  exact ⟨hv, hb, r, j, hrun, hr⟩

/-- A name that is sliced before it is indexed makes the visit fail. -/
theorem visitFor_slicedHead :
    slicedHead.wellFormed = true ∧ withEcho.bindsNone (.start (.ofQueue [])) slicedHead = true ∧
      (match (withEcho.visitFor .current slicedHead (.start (.ofQueue []))).1 with
        | .ok _ => none
        | .error e => some e.kind) = some .attributeError := by
  decide +kernel

end Expander

end TreeMacros
