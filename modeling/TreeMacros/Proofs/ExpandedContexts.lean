import Mathlib
import TreeMacros.Proofs.Standing

/-!
# Contexts after expansion

The contexts that a macro leaves open are filled in before its output is put in its place, as if the
output stood by itself. So they are right where an expression is loaded, and wrong in the place of a
target.

The main statement covers both. If contexts are as demanded before an expansion, they are as demanded
after it, provided that no macro leaves contexts open in the place of a target. And if some macro does,
what it gives has there the contexts of an expression that is loaded, and nothing else is wrong.
-/

namespace TreeMacros

open Value hiding none set
open Attrs (get?)
open Act (Ensures ensures_pure ensures_throw Gives)

/-- The context that a node says it is used in. -/
def Value.ownContext (v : Value) : Context :=
  match v with
  | .node k as =>
    if !k.hasField "ctx" then .load
    else if (get? as "ctx").any (·.isKind .store) then .store
    else if (get? as "ctx").any (·.isKind .del) then .del
    else .load
  | _ => .load

namespace Expander

/-- Whether the contexts of an output are right in the place of its invocation, or will be. Contexts
can be missing if they are to be those of an expression that is loaded; where `lenient`, this is taken
to be so in the place of a target as well. -/
def acceptsContexts (lenient : Bool) (invocation v : Value) : Bool :=
  (lenient || invocation.ownContext == .load) && v.standsIn ⟨true, lenient⟩ .load ||
    v.standsIn ⟨false, lenient⟩ invocation.ownContext

/-- Expands an invocation, unless the macro gives something that is not accepted in its place. -/
def expandJudging (accepts : Value → Value → Bool) (visit : Visit) (x : Expander) (i : Invocation) :
    Expansion Value := do
  let v ← x.outputOf visit i
  if accepts i.call.invocation v then settle visit x i.call.invocation v
  else throw (.fault (.wrongCall "output not accepted"))

/-- Visits a tree as `visitAt` does, unless a macro gives something that is not accepted in the place
of its invocation. -/
def visitJudging (accepts : Value → Value → Bool) : Nat → Visit
  | 0 => fun _ _ => throw (.fault .tooDeep)
  | depth + 1 => fun x v =>
    x.walk (x.expandJudging accepts (visitJudging accepts depth)) (visitJudging accepts depth) v

end Expander

variable {b : Bool} {c d : Context} {k : Kind} {as : Attrs} {v : Value}

/-- What can stand in the place of a node where the context is demanded. -/
def Value.IsPlaced (b : Bool) (c : Context) (v : Value) : Prop :=
  v.isPiece = true ∧ v.standsIn ⟨false, b⟩ c = true

namespace Value

theorem isPlaced_none : none.IsPlaced b c := ⟨rfl, standsIn_other rfl rfl⟩

theorem IsPlaced.of_load (hb : b) (h : v.IsPlaced b .load) : v.IsPlaced b c :=
  ⟨h.1, standsIn_of_load hb h.2⟩

theorem exists_standsAs_given (h : (node k as).standsIn ⟨false, b⟩ c) :
    ∃ d, StandsAs ⟨false, b⟩ d k as ∧
      ∀ v : Value, v.standsIn ⟨false, b⟩ d → v.standsIn ⟨false, b⟩ c := by
  rcases standsIn_node.mp h with h | ⟨hb, h⟩
  · exact ⟨c, h, fun _ hv => hv⟩
  · exact ⟨.load, h, fun _ hv => standsIn_of_load hb hv⟩

theorem eq_load_of_receives (hk : k ∈ [.withStmt, .functionDef, .classDef]) (h : d.receives k) :
    d = .load := by
  revert h
  simp only [List.mem_cons, List.not_mem_nil, or_false] at hk
  rcases hk with rfl | rfl | rfl <;> cases d <;> decide

theorem StandsAs.ownContext_eq (h : StandsAs ⟨false, b⟩ d k as) (hf : k.hasField "ctx") :
    (node k as).ownContext = d := by
  have hany : (get? as "ctx").any (·.isKind d.kind) := by
    simpa [Allowance.admits, hf] using (Bool.and_eq_true_iff.mp h.own).2
  cases hget : get? as "ctx" with
  | none =>
    rw [hget] at hany
    cases hany
  | some u =>
    rw [hget] at hany
    obtain ⟨ds, rfl⟩ := exists_of_isKind hany
    cases d <;> simp [ownContext, hf, hget, isKind, kind?, Context.kind]

theorem ownContext_of_hasField (hf : k.hasField "ctx" = false) : (node k as).ownContext = .load := by
  simp [ownContext, hf]

theorem gives_label_isPlaced (hv : v.IsPlaced b c) :
    Gives (Act.label v : Expansion Value) (IsPlaced b c) := by
  intro w r t _ hrun
  rw [Act.label_run] at hrun
  cases hrun
  exact ⟨trivial, (isPiece_labelled _ _).trans hv.1, (standsIn_labelled _ _).trans hv.2⟩

theorem StandsAs.congr {a : Allowance} {bs : Attrs} (h : StandsAs a c k as)
    (hget : ∀ f ∈ k.fieldNames, get? bs f = get? as f) : StandsAs a c k bs := by
  constructor
  · by_cases hf : "ctx" ∈ k.fieldNames
    · exact (admits_congr (hget _ hf)).trans h.own
    · have hfield : k.hasField "ctx" = false := by simpa [Kind.hasField] using hf
      have hreceives := (Bool.and_eq_true_iff.mp h.own).1
      simp [Allowance.admits, hfield, hreceives]
  · intro f hf hne u hu
    rw [childrenAt, hget f hf, ← childrenAt] at hu
    exact h.children f hf hne u hu

theorem standsIn_copyLocation {a : Allowance} {old : Value} (hk : k.located)
    (h : (node k as).standsIn a c) : ((node k as).copyLocation old).standsIn a c := by
  obtain ⟨bs, hbs, hothers, -⟩ := exists_copyLocation k as old
  obtain ⟨a', d, hd, -, hup, -⟩ := exists_standsAs h
  rw [hbs]
  exact hup _ (hd.congr fun f hf => hothers f (notMem_locationNames hk f hf)).standsIn

theorem standsIn_of_forall {a : Allowance} (hown : a.admits c k as)
    (h : ∀ f ∈ k.fieldNames, f ≠ "ctx" → ∀ v, get? as f = some v →
      v.isNode = false ∧ v.isList = false ∨
        f ∉ Context.leafFields ∧ v.standsIn a (c.inside k f)) :
    (node k as).standsIn a c := by
  refine StandsAs.standsIn ⟨hown, fun f hf hne u hu => ?_⟩
  obtain ⟨hn, hget | ⟨xs, hget, hx⟩⟩ := mem_childrenAt.mp hu
  · rcases h f hf hne u hget with ⟨hnot, -⟩ | hstands
    · rw [hnot] at hn
      cases hn
    · exact hstands
  · rcases h f hf hne _ hget with ⟨-, hnot⟩ | ⟨hleaf, hstands⟩
    · cases hnot
    · exact ⟨hleaf, standsIn_list.mp hstands u hx⟩

theorem standsIn_done (hv : v.standsIn ⟨false, b⟩ c) :
    (node .done [("body", v)]).standsIn ⟨false, b⟩ c := by
  refine standsIn_of_forall (by cases c <;> rfl) fun f hf _ u hu => ?_
  obtain rfl : f = "body" := List.mem_singleton.mp hf
  cases hu
  exact .inr ⟨by decide, hv⟩

end Value

namespace Expander

theorem gives_markDone_isPlaced (hv : v.IsPlaced b c) : Gives (markDone v) (IsPlaced b c) :=
  gives_label_isPlaced ⟨rfl, standsIn_done hv.2⟩

theorem standsIn_coverage {node name code : Value} (h : coverage node name = .ok code) :
    code.standsIn ⟨false, b⟩ .load := by
  unfold coverage at h
  obtain ⟨line, -, h⟩ := except_bind_eq_ok.mp h
  obtain rfl := Except.ok.inj h
  have htarget : ((Value.node .name [("id", .str "_mcpyrate_coverage"),
      ("ctx", .node .store [])]).copyLocation node).standsIn ⟨false, b⟩ .store := by
    refine Value.standsIn_copyLocation rfl ?_
    cases b <;> decide +kernel
  have hvalue (s : String) : ((Value.node .constant [("value", .str s)]).copyLocation node).standsIn
      ⟨false, b⟩ .load := by
    refine Value.standsIn_copyLocation rfl (Value.standsIn_of_forall rfl fun f hf _ u hu => .inl ?_)
    simp only [Attrs.get?_cons] at hu
    split at hu
    · cases hu
      exact ⟨rfl, rfl⟩
    · cases hu
  refine standsIn_done (standsIn_copyLocation rfl
    (standsIn_of_forall rfl fun f hf _ u hu => .inr ?_))
  simp only [Attrs.get?_cons] at hu
  split at hu
  next hname =>
    cases hu
    subst hname
    exact ⟨by decide, standsIn_list.mpr (List.forall_mem_singleton.mpr htarget)⟩
  next =>
    split at hu
    next hname =>
      cases hu
      subst hname
      exact ⟨by decide, hvalue _⟩
    next => cases hu

theorem gives_traced_isPlaced {u node name : Value} (hu : u.IsPlaced b .load) :
    Gives (traced u node name) (IsPlaced b .load) := by
  rw [traced_eq]
  refine Ensures.ite (ensures_pure hu) ((gives_lift (Q := IsPlaced b .load) ?_).bind
    fun code hcode => (gives_label_isPlaced hcode).bind fun c hc => ensures_pure ⟨rfl, ?_⟩)
  · intro code hcode
    refine ⟨?_, standsIn_coverage hcode⟩
    obtain ⟨line, -, hcode⟩ := except_bind_eq_ok.mp hcode
    obtain rfl := Except.ok.inj hcode
    rfl
  · refine standsIn_list.mpr fun y hy => ?_
    rcases List.mem_cons.mp hy with rfl | hy
    · exact hc.2
    · exact standsIn_of_mem_spliced hu.2 hy

/-! ## Expansions in their places -/

section

variable {visit : Visit} {x : Expander} {expand : Invocation → Expansion Value}
  {children : Expansion Value}

def KeepsContexts (b : Bool) (visit : Visit) : Prop :=
  ∀ x v c, v.standsIn ⟨false, b⟩ c = true → Gives (visit x v) fun r =>
    (v.isPiece = true → r.isPiece = true) ∧ r.standsIn ⟨false, b⟩ c = true

/-- Filling in gives contexts as if the output stood by itself, whatever the place of the
invocation. -/
theorem gives_fillIn {a : Allowance} (invocation : Value) (ha : a.missing → c = .load)
    (hv : v.standsIn a c) :
    Gives (fillIn invocation v) fun r => r.isPiece ∧ r.standsIn a.complete c := by
  refine (gives_fixLocations_standsIn invocation hv).bind fun located hlocated => ?_
  have hcontexts : Gives (located.fixContexts : Expansion Value) fun r =>
      r.isPiece = true ∧ r.standsIn a.complete c := by
    intro w r t hw hrun
    exact ⟨trivial, isPiece_of_placeContexts hrun, (gives_placeContexts_standsIn
      (fun hm => (ha hm).symm) hlocated w r t hw hrun).2.2⟩
  refine hcontexts.bind fun placed hplaced => ?_
  intro w r t _ hrun
  rw [Act.label_run] at hrun
  cases hrun
  exact ⟨trivial, (isPiece_labelled _ _).trans hplaced.1,
    (standsIn_labelled _ _).trans hplaced.2⟩

theorem gives_fillIn_isPlaced {invocation : Value} (hv : acceptsContexts b invocation v) :
    Gives (fillIn invocation v) (IsPlaced b invocation.ownContext) := by
  rw [acceptsContexts, Bool.or_eq_true, Bool.and_eq_true, Bool.or_eq_true, beq_iff_eq] at hv
  rcases hv with ⟨hplace, hopen⟩ | hcomplete
  · refine (gives_fillIn invocation (fun _ => rfl) hopen).mono fun r hr => ?_
    rcases hplace with hb | hload
    · exact IsPlaced.of_load hb hr
    · rw [hload]
      exact hr
  · exact gives_fillIn invocation (by simp) hcomplete

theorem gives_settle_isPlaced (hvisit : KeepsContexts b visit) {invocation : Value}
    (hv : acceptsContexts b invocation v) :
    Gives (settle visit x invocation v) (IsPlaced b invocation.ownContext) := by
  rw [settle_eq]
  refine Ensures.ite (ensures_pure isPlaced_none) ?_
  refine (gives_fillIn_isPlaced hv).bind fun fixed hfixed => (gives_true get).bind fun w _ => ?_
  exact ((hvisit x fixed _ hfixed.2).mono fun r hr => ⟨hr.1 hfixed.1, hr.2⟩).ite
    (ensures_pure hfixed)

theorem gives_expandJudging (hvisit : KeepsContexts b visit) (i : Invocation) :
    Gives (x.expandJudging (acceptsContexts b) visit i)
      (IsPlaced b i.call.invocation.ownContext) := by
  refine (gives_true _).bind fun v _ => ?_
  split
  next hv => exact gives_settle_isPlaced hvisit hv
  next => exact ensures_throw _

/-! ## Visits -/

theorem ownContext_shallowCopy (hk : k.hasField "ctx" = false) (own : String) :
    ((node k as).shallowCopy own).ownContext = .load := by
  obtain ⟨bs, hbs, -⟩ := get?_shallowCopy as k own
  rw [hbs]
  exact ownContext_of_hasField hk

end

section

variable {visit : Visit} {x : Expander} {expand : Invocation → Expansion Value}
  (hvisit : KeepsContexts b visit)
  (he : ∀ i : Invocation, Gives (expand i) (IsPlaced b i.call.invocation.ownContext))

include hvisit he

omit hvisit he in
private theorem gives_walk_context (ds : Attrs) :
    Gives (x.walk expand visit (.node d.kind ds)) fun r => r.kind? = some d.kind := by
  rw [walk, fold_node]
  refine (gives_true get).bind fun w _ => Ensures.ite (ensures_pure rfl) ?_
  cases d <;> exact ensures_pure rfl

theorem gives_walk_isPlaced (hv : v.standsIn ⟨false, b⟩ c) :
    Gives (x.walk expand visit v) fun r =>
      (v.isPiece → r.isPiece) ∧ r.standsIn ⟨false, b⟩ c := by
  refine gives_walk_of (G := fun c v => v.standsIn ⟨false, b⟩ c) (fun _ => spreads_standsIn)
    (fun {c k as} hv ih => ?_) hv
  obtain ⟨d, hd, hup⟩ := exists_standsAs_given hv
  suffices hown : Gives (x.walk expand visit (.node k as)) (IsPlaced b d) from
    hown.mono fun r hr => ⟨hr.1, hup r hr.2⟩
  have hself : (node k as).IsPlaced b d := ⟨rfl, hd.standsIn⟩
  have hload (hk : k ∈ [.withStmt, .functionDef, .classDef]) : d = .load :=
    eq_load_of_receives hk (Bool.and_eq_true_iff.mp hd.own).1
  apply gives_walk_node hself
  · refine (gives_rebuild_standsAs (fun f hf hne u hu => ?_) (fun hf u hu => ?_) hd.own
      fun f hf => .inl rfl).mono ?_
    · obtain ⟨hleaf, hstands⟩ := hd.children f hf hne u hu
      exact ⟨hleaf, ih u (mem_children.mpr ⟨f, hf, hu⟩) _ hstands⟩
    · obtain ⟨ds, rfl⟩ := hd.exists_context hf hu
      exact gives_walk_context ds
    · rintro r ⟨cs, rfl, hcs⟩
      exact ⟨rfl, hcs.standsIn⟩
  · intro hk i hi
    have hplaced := he i
    rwa [hi, hd.ownContext_eq (by rcases hk with rfl | rfl <;> rfl)] at hplaced
  · intro hk own i hi
    have hf : k.hasField "ctx" = false := by
      revert hk
      cases k <;> decide
    have hplaced := he i
    rwa [hi, ownContext_shallowCopy hf, ← hload hk] at hplaced
  · intro hk u inner name hu _
    rw [hload hk] at hu ⊢
    exact gives_traced_isPlaced hu
  · exact isPlaced_none
  · exact fun _ => gives_markDone_isPlaced
  · exact fun u hu => (hvisit x u d hu.2).mono fun r hr => ⟨hr.1 hu.1, hr.2⟩

end

theorem keepsContexts_visitJudging (b : Bool) (depth : Nat) :
    KeepsContexts b (visitJudging (acceptsContexts b) depth) := by
  induction depth with
  | zero => exact fun _ _ _ _ => ensures_throw _
  | succ depth ih => exact fun x v c hv => gives_walk_isPlaced ih (gives_expandJudging ih) hv

end Expander

/-- If all nodes of a tree have the contexts that their places demand, so have all nodes of what an
expansion makes of it, provided that the macros give nothing that is not accepted in the place of its
invocation: contexts may be open, but only where the invocation is loaded. Where they are open in the
place of a target too, what is filled in are the contexts of an expression that is loaded, and each
tree in the outcome has the contexts that its place demands or those. -/
theorem expandMacros_standsIn {v r : Value} {bindings : Bindings} {filename : String} {w t : World}
    (lenient : Bool) (hv : v.standsIn ⟨false, lenient⟩ .load = true)
    (hmacros : (Expander.visitTo (Expander.visitJudging (Expander.acceptsContexts lenient)
        Expander.limit) ⟨bindings, filename⟩ .recursive none v w).1 =
      ((⟨bindings, filename⟩ : Expander).visitFor .recursive v w).1)
    (hrun : expandMacros v bindings filename w = (.ok r, t)) :
    r.standsIn ⟨false, lenient⟩ .load = true ∧
      ∀ (invocation u fixed : Value) (w t : World), u.standsIn ⟨true, lenient⟩ .load = true →
        Expander.fillIn invocation u w = (.ok fixed, t) →
          fixed.standsIn ⟨false, lenient⟩ .load = true := by
  constructor
  · obtain ⟨u, m, hu, hrun⟩ := Act.bind_eq_ok.mp hrun
    obtain ⟨s, n, hs, hrun⟩ := Act.bind_eq_ok.mp hrun
    cases hrun
    rw [hu, Expander.visitTo_recursive_run] at hmacros
    have hlabelled := (Value.standsIn_labelled v w.journal.next).trans hv
    have hvisited := gives_fst (Expander.keepsContexts_visitJudging lenient Expander.limit _ _ _
      hlabelled) hmacros
    rw [Value.standsIn_unlabelled]
    exact ((Value.gives_unmarking_standsIn hvisited.2).1 m s t trivial hs).2.2
  · intro invocation u fixed w t hu hfill
    exact (Expander.gives_fillIn invocation (fun _ => rfl) hu w fixed t trivial hfill).2.2

private def nameIn (c : Context) (id : String) : Value :=
  .node .name [("id", .str id), ("ctx", c.node)]

private def bracketsIn (c : Context) : Value :=
  .node .subscript [("value", nameIn .load "m"), ("slice", .node .index [("value", nameIn .load "x")]),
    ("ctx", c.node)]

def assigning (target value : Value) : Value :=
  .node .module [("body", .list [.node .assign [("targets", .list [target]), ("value", value)]]),
    ("type_ignores", .list [])]

/-- A name that leaves its context open. -/
def openTarget : Value := .node .name [("id", .str "y")]

/-- Invoked by a bare name, the macro `n` gives what it is called with. In brackets, the macro `m` gives
a list of two names that leaves contexts open, one of them the name of the other macro. -/
def openMacros : Bindings :=
  [("m", .transformer (giving (.node .list [("elts", .list [openTarget,
      .node .name [("id", .str "n"), ("ctx", .none)]])]))),
    ("n", .transformer ⟨.made 2, "n", "n", none, true, false, .eager fun call => .give call.tree⟩)]

/-- In `n = m[x]` all contexts become as demanded, in `m[x] = x` those of the list are of something
loaded. -/
theorem expandMacros_standsIn_assigning :
    (assigning (nameIn .store "n") (bracketsIn .load)).standsIn ⟨false, false⟩ .load = true ∧
      (∃ r t, expandMacros (assigning (nameIn .store "n") (bracketsIn .load)) openMacros "example.py"
        (.start (.ofQueue [])) = (.ok r, t) ∧ r.standsIn ⟨false, false⟩ .load = true) ∧
    (assigning (bracketsIn .store) (nameIn .load "x")).standsIn ⟨false, true⟩ .load = true ∧
      ∃ r t, expandMacros (assigning (bracketsIn .store) (nameIn .load "x")) openMacros "example.py"
        (.start (.ofQueue [])) = (.ok r, t) ∧ r.standsIn ⟨false, true⟩ .load = true := by
  have hvalue : (assigning (nameIn .store "n") (bracketsIn .load)).standsIn ⟨false, false⟩ .load = true := by
    decide +kernel
  have htarget : (assigning (bracketsIn .store) (nameIn .load "x")).standsIn ⟨false, true⟩ .load = true := by
    decide +kernel
  have hok : (expandMacros (assigning (nameIn .store "n") (bracketsIn .load)) openMacros "example.py"
      (.start (.ofQueue []))).1.isOk = true := by
    decide +kernel
  have hok' : (expandMacros (assigning (bracketsIn .store) (nameIn .load "x")) openMacros "example.py"
      (.start (.ofQueue []))).1.isOk = true := by
    decide +kernel
  obtain ⟨r, t, hrun⟩ := exists_of_isOk hok
  obtain ⟨r', t', hrun'⟩ := exists_of_isOk hok'
  refine ⟨hvalue, ⟨r, t, hrun, (expandMacros_standsIn false hvalue ?_ hrun).1⟩,
    htarget, r', t', hrun', (expandMacros_standsIn true htarget ?_ hrun').1⟩
  · cbv
  · cbv

/-- In `m[x] = x`, where the macro gives a name that leaves its context open, this becomes a name that
is loaded, in the place of a target. -/
theorem expandMacros_target_loaded :
    (assigning (bracketsIn .store) (nameIn .load "x")).standsIn ⟨false, false⟩ .load = true ∧
    openTarget.standsIn ⟨true, false⟩ .load = true ∧
    ((expandMacros (assigning (bracketsIn .store) (nameIn .load "x"))
      [("m", .transformer (giving openTarget))] "example.py" (.start (.ofQueue []))).1.toOption.map
        fun r => (r.standsIn ⟨false, false⟩ .load, (r.at? [.field "body", .item 0, .field "targets",
          .item 0, .field "ctx"]).map (·.isKind .load))) = some (false, some true) := by
  decide +kernel

end TreeMacros
