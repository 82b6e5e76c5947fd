import TreeMacros.Proofs.Hygiene
import TreeMacros.Proofs.LocatedOutput
import TreeMacros.Proofs.Sections

/-!
# Expansion inside of quotes

`expandq` and `expand1q` quote a tree, visit the quote, lower it, visit the tree that comes of it and
quote the outcome. The first visit passes over the code, and lowering gives back the tree with its
optional fields filled in. So on expressions the operators amount to a plain visit whose outcome is
quoted. That fails where something in the outcome has been marked as done, as lifting has no code for
marks. On blocks the operators always fail: the quote of a block is an assignment, and there is no
lowering an assignment.
-/

namespace TreeMacros

open Quotation (assignTo expandQuoted lift liftPlain marked q quotableForms refusal requireForm)
open Value hiding none set
open Act (Reads bind_eq_ok bind_ok get_run lift_bind_eq_ok)
open Act (Ensures ensures_pure ensures_throw Gives)

variable {xs : List Value} {visit : Visit}

/-- What can come of a visit: nothing, a node, or several nodes. -/
def Value.isOutput : Value → Bool
  | none => true
  | node .. => true
  | list xs => !xs.isEmpty && xs.all isNode
  | _ => false

namespace Quotation

/-- The operators that quote a tree before they expand it: `expand1q`, which makes one step, and
`expandq`. -/
def quotedExpansion (once : Bool) : Call → Program := if once then expand1q else expandq

def extentOf (once : Bool) : Extent := if once then .once else .recursive

/-- What a visit has given, without the mark that is put on it after one step. -/
def taken (once : Bool) (v : Value) : Value := if once then marked v else v

end Quotation

/-- The state after code has got labels and has been marked as done. -/
def World.marking (w : World) (code : Value) : World :=
  { w with journal := { w.journal with next := (code.labelled w.journal.next).2 + 1 } }

/-- The state after the quote of a tree has been visited: labels have been given out, and nothing
else has happened. -/
def World.afterQuote (w : World) (tree : Value) : World :=
  (liftPlain tree).toOption.elim w w.marking

namespace Expander

variable {x : Expander} {w t : World} {v r : Value}

/-! ## Visits give labelled trees -/

private theorem spreads_hasLabels : Spreads (hasLabels · = true) :=
  ⟨rfl, fun _ => hasLabels_list⟩

/-- What can stand in the place of a node, with labels. -/
def IsLabelled (v : Value) : Prop := v.hasLabels = true ∧ v.isPiece = true

/-- Visits to labelled trees give labelled trees. -/
def KeepsLabels (visit : Visit) : Prop :=
  ∀ x v, v.hasLabels = true → Gives (visit x v) fun r =>
    r.hasLabels = true ∧ (v.isPiece = true → r.isPiece = true)

private theorem gives_label_isLabelled (hv : v.isPiece) :
    Gives (Act.label v : Expansion Value) IsLabelled := by
  intro w r t _ hrun
  rw [Act.label_run] at hrun
  cases hrun
  exact ⟨trivial, hasLabels_labelled _ _, (isPiece_labelled _ _).trans hv⟩

private theorem gives_traced_isLabelled {u node name : Value} (hu : IsLabelled u) :
    Gives (traced u node name) IsLabelled := by
  rw [traced_eq]
  refine Ensures.ite (ensures_pure hu) ((gives_lift (Q := (isPiece · = true)) ?_).bind
    fun code hcode => (gives_label_isLabelled hcode).bind fun c hc => ensures_pure ⟨?_, rfl⟩)
  · intro code hcode
    obtain ⟨as, rfl⟩ := done_of_coverage hcode
    rfl
  · refine hasLabels_list.mpr fun y hy => ?_
    rcases List.mem_cons.mp hy with rfl | hy
    · exact hc.1
    · exact spreads_hasLabels.spliced_iff.mpr hu.1 y hy

private theorem IsLabelled.of_mem_elements (hv : IsLabelled v) (hxs : v.elements? = some xs)
    {u : Value} (hu : u ∈ xs) : u.hasLabels ∧ (u.isNode → IsLabelled u) := by
  have hlabels : u.hasLabels := by
    cases v with
    | list zs =>
      cases hxs
      exact hasLabels_list.mp hv.1 u hu
    | none | node => cases hxs
    | _ => cases hv.2
  exact ⟨hlabels, fun hn => ⟨hlabels, by simp [isPiece, hn]⟩⟩

private theorem gives_walk_isLabelled {expand : Invocation → Expansion Value}
    (hvisit : KeepsLabels visit) (he : ∀ i, Gives (expand i) IsLabelled) (hl : v.hasLabels) :
    Gives (x.walk expand visit v) fun r =>
      r.hasLabels = true ∧ (v.isPiece → r.isPiece) := by
  have hwalk : Gives (x.walk expand visit v) fun r =>
      (v.isPiece → r.isPiece) ∧ r.hasLabels := by
    refine gives_walk_of (G := fun _ : Unit => (hasLabels · = true)) (fun _ => spreads_hasLabels)
      (fun {c k as} hl ih => ?_) (c := ()) hl
    suffices hnode : Gives (x.walk expand visit (.node k as)) IsLabelled from
      hnode.mono fun r hr => hr.symm
    apply gives_walk_node ⟨hl, rfl⟩
    · refine (ensures_rebuild (fun _ _ _ => trivial) (fun _ (hv : IsLabelled _) => hv.1)
        (fun v xs hv hxs u => hv.of_mem_elements hxs) hl fun u hu => ?_).mono ?_
      · exact (ih u hu () (hasLabels_of_mem_children hl hu)).mono fun r hr => hr.symm
      · rintro r ⟨bs, rfl, hbl, -⟩
        exact ⟨hbl, rfl⟩
    · exact fun _ i _ => he i
    · exact fun _ _ i _ => he i
    · exact fun _ u inner name hu _ => gives_traced_isLabelled hu
    · exact ⟨rfl, rfl⟩
    · exact fun _ _ => gives_label_isLabelled rfl
    · exact fun u hu => (hvisit x u hu.1).mono fun r hr => ⟨hr.1, hr.2 hu.2⟩
  exact hwalk.mono fun r hr => hr.symm

theorem keepsLabels_visitAt (depth : Nat) : KeepsLabels (visitAt depth) := by
  induction depth with
  | zero => exact fun _ _ _ => ensures_throw _
  | succ depth ih =>
    refine fun x v hl => gives_walk_isLabelled ih (fun i w r t _ h => ⟨trivial, ?_⟩) hl
    obtain ⟨m, -, ⟨rfl, -⟩ | ⟨u, hul, hup, hu⟩⟩ := expand_cases (keeps_visitAt depth) h
    · exact ⟨rfl, rfl⟩
    · split at hu
      · obtain ⟨hr, hpiece⟩ := (ih x u hul m r t trivial hu).2
        exact ⟨hr, hpiece hup⟩
      · rw [hu.1]
        exact ⟨hul, hup⟩

theorem run_andThen (visit : Visit) (f : Macro) (p : Program) (next : Value → Program) :
    run visit x f (p.andThen next) = run visit x f p >>= fun v => run visit x f (next v) := by
  induction p with
  | give v => rfl
  | fail e => rfl
  | ask r k ih =>
    rw [Program.andThen, run, run, bind_assoc]
    exact bind_congr fun a => ih a
  | within s body k _ ih =>
    rw [Program.andThen, run, run, bind_assoc]
    exact bind_congr fun a => ih a

theorem run_need (visit : Visit) (f : Macro) (q : Request) (next : q.Reply → Program) :
    run visit x f (.need q next) = answer visit x f q >>= fun a => run visit x f (next a) := by
  funext w
  cases hr : answer visit x f q w with
  | mk out t =>
    cases out with
    | ok a => rw [run_need_ok hr, bind_ok hr]
    | error e => rw [run_need_error hr, Act.bind_error hr]

theorem run_ofExcept {α : Type} (visit : Visit) (f : Macro) (e : Except Error α)
    (next : α → Program) :
    run visit x f (.ofExcept e next) = liftM e >>= fun a => run visit x f (next a) := by
  funext w
  cases e with
  | ok a => exact (Act.lift_bind_ok rfl).symm
  | error e => rfl

/-! ## Quoting what a visit has given -/

private theorem suite_of_isOutput (h : (list xs).isOutput) : suite xs = .list xs := by
  obtain ⟨hne, hnodes⟩ := Bool.and_eq_true_iff.mp h
  rw [suite_of_isNode (List.all_eq_true.mp hnodes), if_neg (by simpa using hne)]

theorem reads_walk_of_isOutput (expand : Invocation → Expansion Value) (visit : Visit)
    (hidle : x.isIdle w = false) (hv : v.isOutput) (hl : v.hasLabels)
    (h : x.invokesNone w v) :
    Reads (x.walk expand visit v) w (x.passesOver w v) v fun _ => True := by
  cases v with
  | node k as => exact reads_walk_of_invokesNone expand visit hidle rfl hl h
  | none =>
    rw [walk_rest expand visit rfl, visitRest]
    refine Reads.after (get_run w) ?_
    rw [hidle]
    exact Reads.of_run rfl
  | list xs =>
    have hnodes := List.all_eq_true.mp (Bool.and_eq_true_iff.mp hv).2
    have hall : x.passesOver w (.list xs) = xs.all (x.passesOver w) := by
      rw [Bool.eq_iff_iff, List.all_eq_true]
      exact throughout_list
    have hitems : Reads (xs.mapM (x.walk expand visit)) w (xs.all (x.passesOver w))
        (xs.map id) fun _ => True :=
      Reads.mapM fun u hu => reads_walk_of_invokesNone expand visit hidle (hnodes u hu)
        (hasLabels_list.mp hl u hu) (throughout_list.mp h u hu)
    rw [walk_rest expand visit rfl, visitRest, hall]
    refine Reads.after (get_run w) ?_
    rw [hidle]
    simp only [foldPart, foldItems_eq, List.mapM_map, List.map_id] at hitems ⊢
    refine hitems.before ?_
    rw [suite_of_isOutput hv]
    rfl
  | _ => cases hv

theorem reads_visitAt_of_isOutput (depth : Nat) (hv : v.isOutput) (hl : v.hasLabels)
    (h : x.invokesNone w v) : Reads (visitAt (depth + 1) x v) w
      (x.isIdle w || x.passesOver w v) v fun _ => True := by
  cases hidle : x.isIdle w with
  | true => exact Reads.of_run (walk_of_isIdle _ _ v hidle)
  | false => exact reads_walk_of_isOutput _ _ hidle hv hl h

section

variable {f : Macro} {call : Call} {n : Int} {s : World}

variable (hform : call.form = .expr) (hsuite : call.suite = none)
  (hl : call.tree.hasLabels = true) (hn : w.quoteLevels.current = .int n) (hlevel : 0 ≤ n)

include hform hsuite hl hn hlevel

theorem run_q_of_lift_error {e : Error}
    (hvisit : visit (x.operatorsOnly w) call.tree (w.quoting n) = (.ok v, s))
    (hlift : lift x.capture? v { s with recursive := w.recursive } = (.error e, t)) :
    run visit x f (q call) w = (.error e, { t with quoteLevels := w.quoteLevels }) := by
  rw [run_q_eq hform hsuite hn hlevel, run_need_ok (answer_unquote_of_visit hl hvisit),
    run_need_error (r := .lift v) hlift]

theorem run_q_of_isRestorable (houtput : call.tree.isOutput)
    (hrestorable : call.tree.isRestorable)
    (hpasses : (x.operatorsOnly w).passesOver w call.tree) (depth : Nat) :
    ∃ code, liftPlain call.tree = .ok code ∧
      run (visitAt (depth + 1)) x f (q call) w = (.ok code, w) := by
  obtain ⟨code, hlift, -⟩ := Quotation.returns_of_isRestorable .ok hrestorable
  refine ⟨code, hlift, ?_⟩
  have hvisit : visitAt (depth + 1) (x.operatorsOnly w) call.tree (w.quoting n) =
      (.ok call.tree, w.quoting n) := by
    rw [← passesOver_congr (t := w) (w := w.quoting n) rfl] at hpasses
    have hreads := reads_visitAt_of_isOutput depth houtput hl (invokesNone_of_passesOver hpasses)
    rwa [hpasses, Bool.or_true] at hreads
  have hrun := run_q (f := f) hform hsuite hl hn hlevel hvisit
    (Quotation.lift_of_isRestorable x.capture? hrestorable hlift _)
    (Quotation.isFinished_of_isCode (Quotation.isCode_of_liftPlain hrestorable hlift))
  exact hrun

theorem run_q_of_offenders (houtput : call.tree.isOutput)
    (hnone : (x.operatorsOnly w).invokesNone w call.tree)
    (hkinds : ∀ u ∈ call.tree.offenders, u.isKind .literal = false ∧ u.isKind .captureLater = false)
    (hoffenders : call.tree.offenders ≠ []) (depth : Nat) :
    ∃ e t, run (visitAt (depth + 1)) x f (q call) w = (.error e, t) := by
  rw [← invokesNone_congr (t := w) (w := w.quoting n) rfl] at hnone
  have hreads := reads_visitAt_of_isOutput depth houtput hl hnone
  unfold Reads at hreads
  split at hreads
  next =>
    obtain ⟨u, us, hus⟩ := List.exists_cons_of_ne_nil hoffenders
    have hrefuses := Quotation.refuses_liftPlain hkinds
    rw [hus] at hrefuses
    have hlift : lift x.capture? call.tree { w.quoting n with recursive := w.recursive } =
        (.error (refusal u), { w.quoting n with recursive := w.recursive }) := by
      have herror : liftPlain call.tree = .error (refusal u) := hrefuses
      rw [Quotation.lift_eq_liftM _ fun u hu => (hkinds u hu).2, herror]
      rfl
    exact ⟨_, _, run_q_of_lift_error hform hsuite hl hn hlevel hreads hlift⟩
  next =>
    obtain ⟨e, -, hvisit⟩ := hreads
    obtain ⟨t, hrun⟩ := run_q_of_error (f := f) hform hsuite hl hn hlevel hvisit
    exact ⟨e, t, hrun⟩

end

/-! ## Quoting, expanding and quoting again -/

section

open Quotation (isCode lower)

variable {f : Macro} {call : Call} {depth : Nat} {code : Value}

theorem marked_labelled {b : Value} (hb : b.hasLabels) (n : Nat) :
    marked ((node .done [("body", b)]).labelled n).1 = b ∧
      ((node .done [("body", b)]).labelled n).2 = n + 1 := by
  rw [labelled_node, labelledAttrs_cons, labelled_of_hasLabels hb]
  exact ⟨rfl, rfl⟩

theorem visitTo_once_run (visit : Visit) (x : Expander) (v : Value) (w : World) :
    visitTo visit x .once none v w =
      let out := (visitTree visit x none v >>= markDone) { w with recursive := false }
      (out.1, { out.2 with recursive := w.recursive }) := rfl

theorem visitTo_once_eq_ok {depth : Nat} {done : Value}
    (h : visitTo (visitAt depth) x .once none v w = (.ok done, t)) :
    ∃ s, visitAt depth x (v.labelled w.journal.next).1
        ({ w with recursive := false }.labelling v) = (.ok (marked done), s) ∧
      (marked done).hasLabels = true := by
  rw [visitTo_once_run] at h
  have hout : ((visitTree (visitAt depth) x none v >>= markDone) { w with recursive := false }).1 =
      .ok done := congrArg Prod.fst h
  obtain ⟨b, s, hb, hdone⟩ := bind_eq_ok.mp (Prod.ext hout rfl)
  rw [visitTree_none_run] at hb
  have hlabels := (keepsLabels_visitAt depth x _ (hasLabels_labelled v _) _ b s trivial hb).2.1
  rw [markDone, Act.label_run] at hdone
  obtain rfl : ((node .done [("body", b)]).labelled s.journal.next).1 = done :=
    Except.ok.inj (congrArg Prod.fst hdone)
  rw [(marked_labelled hlabels _).1]
  exact ⟨s, hb, hlabels⟩

/-- Code passes through a visit of one step. It comes back marked, and with labels. -/
theorem visitTo_once_of_isCode (hlibrary : ∀ b, x.known? w "mcpyrate" = some b → b.isName = false)
    (h : isCode code) (depth : Nat) :
    ∃ done, visitTo (visitAt (depth + 1)) x .once none code w = (.ok done, w.marking code) ∧
      marked done = (code.labelled w.journal.next).1 := by
  have hcode : isCode (code.labelled w.journal.next).1 :=
    (Quotation.isCode_labelled code _).trans h
  have hvisit : visitTree (visitAt (depth + 1)) x none code { w with recursive := false } =
      (.ok (code.labelled w.journal.next).1, { w with recursive := false }.labelling code) := by
    rw [visitTree_none_run]
    exact walk_of_passesOver _ _ (Quotation.isNode_of_isCode hcode) (hasLabels_labelled _ _)
      (passesOver_of_isCode hlibrary hcode)
  obtain ⟨hmarked, hnext⟩ := marked_labelled (hasLabels_labelled code w.journal.next)
    ({ w with recursive := false }.labelling code).journal.next
  rw [visitTo_once_run, bind_ok hvisit, markDone, Act.label_run]
  refine ⟨_, Prod.ext rfl ?_, hmarked⟩
  simp only [World.labelling] at hnext ⊢
  rw [hnext]
  rfl

variable {visit : Visit} {extent : Extent}

theorem run_expandQuoted (visit : Visit) (f : Macro) (extent : Extent) (call : Call) :
    run visit x f (expandQuoted extent call) =
      visitTo visit x .once call.suite call.tree >>= fun v =>
        liftM (lower (marked v)) >>= fun tree =>
          visitTo visit x extent none tree >>= fun v =>
            run visit x f (q { call with
              tree := if extent == .once then marked v else v, suite := none }) := by
  simp only [expandQuoted, run_need, run_ofExcept]
  rfl

theorem run_quotedExpansion (hform : [Form.expr, .block].contains call.form) (visit : Visit)
    (f : Macro) (once : Bool) :
    run visit x f (Quotation.quotedExpansion once call) =
      run visit x f (q call) >>= fun code =>
        run visit x f (expandQuoted (Quotation.extentOf once)
          { call with tree := code, suite := none }) := by
  cases once <;>
    simp only [Quotation.quotedExpansion, Quotation.expandq, Quotation.expand1q, Quotation.expand,
      Quotation.expand1, quotableForms, requireForm, hform, if_true,
      run_andThen, Quotation.extentOf, Bool.false_eq_true, if_false]

/-- The call is for an expression that can be quoted and has nothing in it for the operators to
expand. The name of the library is no macro on its own. -/
structure QuotesPlainly (x : Expander) (w : World) (call : Call) : Prop where
  form : call.form = .expr
  suite : call.suite = none
  level : ∃ n, w.quoteLevels.current = .int n ∧ 0 ≤ n
  labelled : call.tree.hasLabels = true
  output : call.tree.isOutput = true
  restorable : call.tree.isRestorable = true
  passes : (x.operatorsOnly w).passesOver w call.tree = true
  library : ∀ b, x.known? w "mcpyrate" = some b → b.isName = false

/-- The tree is visited as if it had not been quoted, and then quoted. -/
theorem run_quotedExpansion_expr (h : x.QuotesPlainly w call) (depth : Nat) (f : Macro)
    (once : Bool) :
    run (visitAt (depth + 1)) x f (Quotation.quotedExpansion once call) w =
      (visitTo (visitAt (depth + 1)) x (Quotation.extentOf once) none call.tree.completed >>=
        fun v => run (visitAt (depth + 1)) x f (q { call with
          tree := Quotation.taken once v, suite := none })) (w.afterQuote call.tree) := by
  have hforms : [Form.expr, .block].contains call.form := by
    rw [h.form]
    rfl
  obtain ⟨n, hn, hlevel⟩ := h.level
  obtain ⟨code, hlift, hrun⟩ := run_q_of_isRestorable (f := f) h.form h.suite h.labelled hn hlevel
    h.output h.restorable h.passes depth
  have hcode := Quotation.isCode_of_liftPlain h.restorable hlift
  have hlower := Quotation.lower_of_liftPlain h.restorable hlift
  obtain ⟨done, hdone, hmarked⟩ := visitTo_once_of_isCode h.library hcode depth
  have hback : lower (marked done) = .ok call.tree.completed := by
    rw [hmarked]
    exact Quotation.lowerWith_labelled hcode hlower _
  have hstate : w.afterQuote call.tree = w.marking code := by
    rw [World.afterQuote, hlift]
    rfl
  rw [run_quotedExpansion hforms, bind_ok hrun, run_expandQuoted, bind_ok hdone,
    Act.lift_bind_ok hback, hstate]
  cases once <;> rfl

/-! ## Blocks -/

theorem atQuoteLevel_eq_ok {α : Type} {delta : Value} {act : Expansion α} {a : α}
    (h : Expansion.atQuoteLevel delta act w = (.ok a, t)) : ∃ s s', act s = (.ok a, s') := by
  rw [Expansion.atQuoteLevel, bind_ok (get_run w)] at h
  obtain ⟨levels, -, hact⟩ := lift_bind_eq_ok.mp h
  have hout : (act { w with quoteLevels := levels }).1 = .ok a := congrArg Prod.fst hact
  exact ⟨_, _, Prod.ext hout rfl⟩

theorem exists_of_run_q_block (hform : call.form = .block)
    (h : run visit x f (q call) w = (.ok v, t)) : ∃ as, v = .node .assign as := by
  have hforms : [Form.expr, .block].contains call.form := by
    rw [hform]
    rfl
  rw [q, quotableForms, requireForm, if_pos hforms, run_inScope] at h
  obtain ⟨s, s', h⟩ := atQuoteLevel_eq_ok h
  rw [run_need] at h
  obtain ⟨tree, s₁, -, h⟩ := bind_eq_ok.mp h
  rw [run_need] at h
  obtain ⟨code, s₂, -, h⟩ := bind_eq_ok.mp h
  rw [Quotation.finishQuote, run_ofExcept] at h
  obtain ⟨markers, -, h⟩ := lift_bind_eq_ok.mp h
  cases markers with
  | cons => cases h
  | nil =>
    rw [hform] at h
    change run visit x f (.ofExcept (assignTo call code) .give) s₂ = _ at h
    rw [run_ofExcept] at h
    obtain ⟨code', hassign, h⟩ := lift_bind_eq_ok.mp h
    cases h
    unfold assignTo at hassign
    dsimp only at hassign
    split at hassign
    · cases hassign
      exact ⟨_, rfl⟩
    · obtain ⟨text, -, hassign⟩ := except_bind_eq_ok.mp hassign
      cases hassign

theorem exists_of_walk_assign {as : Attrs} {expand : Invocation → Expansion Value}
    (h : x.walk expand visit (.node .assign as) w = (.ok r, t)) : ∃ bs, r = .node .assign bs := by
  rw [walk, fold_node, visitNode, bind_ok (get_run w)] at h
  split at h
  · cases h
    exact ⟨as, rfl⟩
  · obtain ⟨bs, s, -, h⟩ := bind_eq_ok.mp h
    cases h
    exact ⟨bs, rfl⟩

/-- There is no expansion of a quoted block: its quote is an assignment, which cannot be lowered. -/
theorem run_quotedExpansion_block (hform : call.form = .block) (depth : Nat) (f : Macro)
    (once : Bool) (w : World) :
    ∃ e t, run (visitAt depth) x f (Quotation.quotedExpansion once call) w = (.error e, t) := by
  have hforms : [Form.expr, .block].contains call.form := by
    rw [hform]
    rfl
  rw [run_quotedExpansion hforms]
  suffices hnot : ∀ r t, (run (visitAt depth) x f (q call) >>= fun code =>
      run (visitAt depth) x f (expandQuoted (Quotation.extentOf once)
        { call with tree := code, suite := none })) w ≠ (.ok r, t) by
    revert hnot
    generalize (run (visitAt depth) x f (q call) >>= _) w = out
    obtain ⟨e | r, t⟩ := out
    · exact fun _ => ⟨e, t, rfl⟩
    · exact fun hnot => absurd rfl (hnot r t)
  intro r t h
  obtain ⟨code, s, hcode, h⟩ := bind_eq_ok.mp h
  obtain ⟨as, rfl⟩ := exists_of_run_q_block hform hcode
  rw [run_expandQuoted] at h
  obtain ⟨done, s₁, hdone, h⟩ := bind_eq_ok.mp h
  obtain ⟨tree, htree, -⟩ := lift_bind_eq_ok.mp h
  obtain ⟨s₂, hvisit, -⟩ := visitTo_once_eq_ok hdone
  cases depth with
  | zero => cases hvisit
  | succ depth =>
    obtain ⟨bs, hbs⟩ : ∃ bs, (node .assign as).labelled s.journal.next =
        (.node .assign bs, ((node .assign as).labelled s.journal.next).2) := by
      rw [labelled_node]
      split <;> exact ⟨_, rfl⟩
    rw [hbs] at hvisit
    obtain ⟨cs, hcs⟩ := exists_of_walk_assign hvisit
    obtain ⟨e, he⟩ := Quotation.lowerWith_of_notMem (Quotation.lowerAt 999) (k := .assign)
      (by decide) cs
    have herror : lower (marked done) = .error e := by
      rw [hcs]
      exact he
    rw [herror] at htree
    cases htree

/-! ## Agreement -/

theorem hasLabels_taken {once : Bool} {depth : Nat}
    (h : visitTo (visitAt depth) x (Quotation.extentOf once) none v w = (.ok r, t)) :
    (Quotation.taken once r).hasLabels := by
  cases once with
  | true =>
    obtain ⟨-, -, hlabels⟩ := visitTo_once_eq_ok h
    exact hlabels
  | false =>
    change visitTo (visitAt depth) x .recursive none v w = (.ok r, t) at h
    rw [visitTo_recursive_run] at h
    have hout : (visitAt depth x (v.labelled w.journal.next).1
        ({ w with recursive := true }.labelling v)).1 = .ok r := congrArg Prod.fst h
    exact (gives_fst (keepsLabels_visitAt depth x _ (hasLabels_labelled v _)) hout).1

/-- The outcome of a visit can be quoted: it is a tree or a list of trees, the quotation operators
find nothing to do in it, and it is made of what lifting has code for. -/
structure Requotes (x : Expander) (w : World) (r : Value) : Prop where
  output : r.isOutput = true
  passes : (x.operatorsOnly w).passesOver w r = true
  restorable : r.isRestorable = true

/-- There is something in the outcome of a visit that lifting has no code for: most of all what has
been marked as done. -/
structure HasOffender (x : Expander) (w : World) (r : Value) : Prop where
  output : r.isOutput = true
  inert : (x.operatorsOnly w).invokesNone w r = true
  kinds : ∀ u ∈ r.offenders, u.isKind .literal = false ∧ u.isKind .captureLater = false
  offenders : r.offenders ≠ []

/-- Expanding a quote never works on blocks. On expressions it amounts to quoting the outcome of a
plain visit: it fails if the visit fails, or if something in the outcome has been marked as done,
and else it gives code for the outcome. -/
theorem quotedExpansion_agrees (x : Expander) (w : World) (call : Call) (depth : Nat) (f : Macro)
    (once : Bool) :
    (call.form = .block → ∃ e t,
      run (visitAt (depth + 1)) x f (Quotation.quotedExpansion once call) w = (.error e, t)) ∧
    (x.QuotesPlainly w call →
      (∀ e t, visitTo (visitAt (depth + 1)) x (Quotation.extentOf once) none call.tree.completed
          (w.afterQuote call.tree) = (.error e, t) →
        run (visitAt (depth + 1)) x f (Quotation.quotedExpansion once call) w = (.error e, t)) ∧
      ∀ v t, visitTo (visitAt (depth + 1)) x (Quotation.extentOf once) none call.tree.completed
          (w.afterQuote call.tree) = (.ok v, t) →
        (x.Requotes t (Quotation.taken once v) → ∃ code,
          run (visitAt (depth + 1)) x f (Quotation.quotedExpansion once call) w = (.ok code, t) ∧
            lower code = .ok (Quotation.taken once v).completed) ∧
        (x.HasOffender t (Quotation.taken once v) → ∃ e t',
          run (visitAt (depth + 1)) x f (Quotation.quotedExpansion once call) w =
            (.error e, t'))) := by
  refine ⟨fun hform => run_quotedExpansion_block hform _ f once w, fun h => ?_⟩
  rw [run_quotedExpansion_expr h]
  refine ⟨fun e t hvisit => Act.bind_error hvisit, fun v t hvisit => ?_⟩
  rw [Act.bind_ok hvisit]
  obtain ⟨n, hn, hlevel⟩ := h.level
  have hlabels := hasLabels_taken hvisit
  have hrestored : World.Restored (w.afterQuote call.tree) t :=
    (keeps_visitTo (keeps_visitAt _) x _ _ _).of_run hvisit
  have hstart : (w.afterQuote call.tree).quoteLevels = w.quoteLevels := by
    rw [World.afterQuote]
    cases (Quotation.liftPlain call.tree).toOption <;> rfl
  have ht : t.quoteLevels.current = .int n := by rw [hrestored.quoteLevels, hstart, hn]
  have hform : Call.form { call with tree := Quotation.taken once v, suite := none } = .expr := h.form
  constructor
  · intro hr
    obtain ⟨code, hlift, hrun⟩ := run_q_of_isRestorable (f := f) hform rfl hlabels ht hlevel
      hr.output hr.restorable hr.passes depth
    exact ⟨code, hrun, Quotation.lower_of_liftPlain hr.restorable hlift⟩
  · intro hr
    exact run_q_of_offenders hform rfl hlabels ht hlevel hr.output hr.inert hr.kinds hr.offenders
      depth

/-- The call of an operator on a tree; the target is used by blocks. -/
def quotationOf (form : Form) (tree : Value) : Call :=
  ⟨form, (tree.labelled 0).1, none, .list [], some (nameOf "v"), tree⟩

theorem quotedExpansion_agrees_echo :
    withEcho.QuotesPlainly (.start (.ofQueue []))
      (quotationOf .expr (bracketsOf (nameOf "m") (nameOf "b"))) ∧
    ∃ code t r, run (visitAt 3) withEcho echo (Quotation.quotedExpansion false
        (quotationOf .expr (bracketsOf (nameOf "m") (nameOf "b")))) (.start (.ofQueue [])) =
          (.ok code, t) ∧
      lower code = .ok r ∧ r.isNameOf "b" = true := by
  have hplain : withEcho.QuotesPlainly (.start (.ofQueue []))
      (quotationOf .expr (bracketsOf (nameOf "m") (nameOf "b"))) :=
    ⟨rfl, rfl, ⟨0, rfl, by decide⟩, Value.hasLabels_labelled _ 0, rfl, by decide +kernel,
      by decide +kernel, fun b hb => (by cases hb)⟩
  refine ⟨hplain, ?_⟩
  have h := ((quotedExpansion_agrees withEcho (.start (.ofQueue []))
    (quotationOf .expr (bracketsOf (nameOf "m") (nameOf "b"))) 2 echo false).2 hplain).2
  generalize hout : visitTo (visitAt 3) withEcho (Quotation.extentOf false) none
    (quotationOf .expr (bracketsOf (nameOf "m") (nameOf "b"))).tree.completed
    ((World.start (.ofQueue [])).afterQuote
      (quotationOf .expr (bracketsOf (nameOf "m") (nameOf "b"))).tree) = out at h
  have hcheck : out.1.toOption.any (fun r => r.isOutput &&
      (withEcho.operatorsOnly out.2).passesOver out.2 r && r.isRestorable &&
        r.completed.isNameOf "b") = true := by
    rw [← hout]
    decide +kernel
  obtain ⟨e | r, t⟩ := out
  · cases hcheck
  · simp only [Except.toOption, Option.any_some, Bool.and_eq_true] at hcheck
    obtain ⟨⟨⟨houtput, hpasses⟩, hrestorable⟩, hname⟩ := hcheck
    obtain ⟨code, hrun, hlower⟩ := (h r t rfl).1 ⟨houtput, hpasses, hrestorable⟩
    exact ⟨code, t, r.completed, hrun, hlower, hname⟩

/-- An expander with a macro that is invoked by the bare name `b` and gives the name back. -/
def withSelf : Expander :=
  ⟨[("b", .transformer { echo with name := "b", label := "b", isName := true })], "example.py"⟩

/-- A statement can be visited, and so can its outcome be quoted, but not in the form of a block. A
name that is left for good has been marked as done, so that there is no quote of it. -/
theorem quotedExpansion_statement_name :
    ((withEcho.visitFor .recursive (.list [.node .expr [("value", nameOf "b")]])
        (.start (.ofQueue []))).1.toOption.any (·.isRestorable) = true ∧
      (run (visitAt 3) withEcho echo (Quotation.quotedExpansion false
        (quotationOf .block (.list [.node .expr [("value", nameOf "b")]])))
          (.start (.ofQueue []))).1.toOption.isNone = true) ∧
    (withSelf.visitFor .recursive (nameOf "b") (.start (.ofQueue []))).1.toOption.any
        (·.isKind .done) = true ∧
      (run (visitAt 3) withSelf echo (Quotation.quotedExpansion false
        (quotationOf .expr (nameOf "b"))) (.start (.ofQueue []))).1.toOption.isNone = true := by
  decide +kernel

end

end Expander

end TreeMacros
