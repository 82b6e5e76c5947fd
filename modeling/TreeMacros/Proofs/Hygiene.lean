import TreeMacros.Proofs.CaptureMarks
import TreeMacros.Proofs.LiftedCode

/-!
# Hygienic macro calls

In a quote, `h[m][x]` is a call of the macro that `m` names where the quote stands. The quoted tree
calls this very macro wherever it is expanded, whatever `m` means there.
-/

namespace TreeMacros

open Value hiding none set
open Attrs (get? get?_set)
open Act (bind_ok)

variable {v use head arg : Value} {g : String}

theorem Value.markers_of_isUnmarked {family : Kind} (hn : v.isNode)
    (h : v.isUnmarked family) : v.markers family = .ok [] := by
  induction v using walkInduction with
  | rest v hrest =>
    rw [hn] at hrest
    cases hrest
  | node k as ih =>
    obtain ⟨hk, hbelow⟩ := isUnmarked_node.mp h
    have hinner : (children k as).mapM (markers family) = .ok ((children k as).map fun _ => []) :=
      except_mapM_of_ok fun u hu => ih u hu (isNode_of_mem_children hu) (hbelow u hu)
    rw [markers, fold_node, childItems_foldAttrs, List.mapM_map]
    change ((children k as).mapM (markers family) >>= _) = _
    rw [hinner, hk]
    simp [bind, Except.bind, pure, Except.pure]

/-- The tree with the name `g` before its brackets. -/
def Value.calling (g : String) : Value → Value
  | node .subscript as => node .subscript (Attrs.set as "value" (node .name [("id", str g)]))
  | v => v

namespace Quotation

section

variable {σ : Type} {captured : Value → Act σ (Option String)}

theorem lift_captureLater {cs : Attrs} {u : Value} {m : String} {s t : σ}
    (hbody : get? cs "body" = some u) (hu : u.isNameOf m)
    (hcaptured : captured u s = (.ok (some g), t)) :
    lift captured (.node .captureLater cs) s = (.ok (boundName g), t) := by
  obtain ⟨as, rfl⟩ := exists_of_isNameOf hu
  have hattr : (liftExcept ((node .captureLater cs).attr "body") : Act σ Value) s =
      (.ok (.node .name as), s) := by
    rw [attr_of_get? hbody]
    rfl
  rw [lift, fold_node]
  exact (bind_ok hattr).trans (bind_ok hcaptured)

end

section

variable {as : Attrs}

theorem buildCall_set_value (as : Attrs) (v u : Value) (codes : List (String × Value)) :
    buildCall (.node .subscript (Attrs.set as "value" v)) codes =
      buildCall (.node .subscript (Attrs.set as "value" u)) codes := by
  have hcopied {n : String} (hn : n ≠ "value") :
      (node .subscript (Attrs.set as "value" v)).copiedAttr? n =
        (node .subscript (Attrs.set as "value" u)).copiedAttr? n := by
    simp only [copiedAttr?, attr?, get?_set, if_neg hn]
  simp only [buildCall, copyLocation, Kind.locationNames, List.foldl_cons, List.foldl_nil,
    hcopied (n := "lineno") (by simp), hcopied (n := "col_offset") (by simp),
    hcopied (n := "end_lineno") (by simp), hcopied (n := "end_col_offset") (by simp)]
  rfl

theorem hasPlainLocation_set_value (as : Attrs) (v : Value) :
    hasPlainLocation (Attrs.set as "value" v) = hasPlainLocation as := by
  simp [hasPlainLocation, Kind.locationNames, get?_set]

theorem fields_set_value {slice ctx : Value} (hslice : get? as "slice" = some slice)
    (hctx : get? as "ctx" = some ctx) (v : Value) :
    (node .subscript (Attrs.set as "value" v)).fields =
      [("value", v), ("slice", slice), ("ctx", ctx)] := by
  have hfields : Kind.subscript.fields = [.req "value", .req "slice", .req "ctx"] := rfl
  simp [fields, hfields, field?, Field.req, get?_set, hslice, hctx]

theorem isQuotable_calling (huse : use.brackets? = some (head, arg)) (h : use.isQuotable)
    (g : String) : (use.calling g).isQuotable := by
  obtain ⟨as, bs, c, rfl, hvalue, hslice, -, hctx, -⟩ := exists_of_brackets? huse
  obtain ⟨hk, hold, hlocation, hfields⟩ := isQuotable_node.mp h
  have hold : Attrs.set as "value" head = as := Attrs.set_eq_self hvalue
  rw [← hold, fields_set_value hslice hctx] at hfields
  refine isQuotable_node.mpr ⟨rfl, fun hc => (by cases hc), fun _ => ?_, ?_⟩
  · rw [hasPlainLocation_set_value]
    exact hlocation rfl
  · rw [fields_set_value hslice hctx]
    simp only [List.mem_cons, List.not_mem_nil, or_false, forall_eq_or_imp, forall_eq] at hfields ⊢
    exact ⟨rfl, hfields.2⟩

end

/-- A use of what is marked for capture becomes code for a use of the name that it has been captured
under. -/
theorem lift_use {σ : Type} {captured : Value → Act σ (Option String)} {as cs : Attrs} {u : Value}
    {m : String} {s t : σ} (huse : (node .subscript as).brackets? = some (head, arg))
    (h : (node .subscript as).isQuotable) (hbody : get? cs "body" = some u)
    (hu : u.isNameOf m) (hcaptured : captured u s = (.ok (some g), t)) :
    ∃ code, lift captured (.node .subscript (Attrs.set as "value" (.node .captureLater cs))) s =
        (.ok code, t) ∧ IsFinished code ∧
      ∀ again, lowerWith again code = .ok ((node .subscript as).calling g).completed := by
  have hquotable := isQuotable_calling huse h g
  obtain ⟨code, hlift, -⟩ := returns_of_isQuotable .ok hquotable
  have hrestorable := isRestorable_of_isQuotable hquotable
  have hrun := lift_of_isRestorable captured hrestorable hlift
  refine ⟨code, ?_, isFinished_of_isCode (isCode_of_liftPlain hrestorable hlift), fun again => ?_⟩
  · obtain ⟨_, bs, c, ⟨⟩, -, hslice, -, hctx, -⟩ := exists_of_brackets? huse
    have hmark := lift_captureLater hbody hu hcaptured
    have hname : lift captured (.node .name [("id", .str g)]) t = (.ok (boundName g), t) :=
      lift_of_isRestorable captured rfl rfl t
    rw [← hrun t, calling, lift_node _ rfl, lift_node _ rfl, fields_set_value hslice hctx,
      fields_set_value hslice hctx]
    simp only [List.mapM_cons, bind_assoc]
    rw [bind_ok hmark, bind_ok hname]
    simp only [buildCall_set_value as (.node .captureLater cs) (.node .name [("id", .str g)])]
  · obtain ⟨_, hlift', hlower⟩ := returns_of_isQuotable again hquotable
    rw [hlift] at hlift'
    cases hlift'
    exact hlower

end Quotation

/-- The state in which the operators in a quote are expanded. -/
def World.quoting (w : World) (n : Int) : World :=
  { w with
    quoteLevels := { w.quoteLevels with entered := .int (n + 1) :: w.quoteLevels.entered }
    recursive := true }

theorem World.Orderly.of_eq {w t : World} (h : w.Orderly) (hglobals : t.globals = w.globals)
    (hnames : t.names = w.names) : t.Orderly := by
  refine ⟨?_, ?_, ?_⟩
  · rw [Tidy, hglobals, hnames]
    exact h.tidy
  · rw [hglobals]
    exact h.distinct
  · rw [hglobals]
    exact h.named

namespace Expander

open Quotation (IsFinished lift lower q finishQuote lift_use)

/-! ## Running a quote -/

section

variable {x : Expander} {visit : Visit} {w s t : World} {f : Macro} {call : Call} {n : Int}

theorem answer_unquote (hl : v.hasLabels) (w : World) :
    answer visit x f (.unquote none v) w =
      ((visit (x.operatorsOnly w) v { w with recursive := true }).1,
        { (visit (x.operatorsOnly w) v { w with recursive := true }).2 with
          recursive := w.recursive }) := by
  have hrun := visitTree_none_run visit (x.operatorsOnly w) v { w with recursive := true }
  rw [labelled_of_hasLabels hl, World.labelling_of_hasLabels hl] at hrun
  rw [← hrun]
  exact bind_ok (Act.get_run w)

section

variable (hform : call.form = .expr) (hsuite : call.suite = none)
  (hl : call.tree.hasLabels = true) (hn : w.quoteLevels.current = .int n) (hlevel : 0 ≤ n)

include hform hsuite hn hlevel

theorem run_q_eq : run visit x f (q call) w =
    let p := run visit x f (.need (.unquote none call.tree) fun v =>
      .need (.lift v) fun code => finishQuote call code)
        { w.quoting n with recursive := w.recursive }
    (p.1, { p.2 with quoteLevels := w.quoteLevels }) := by
  have hforms : [Form.expr, .block].contains call.form := by
    rw [hform]
    rfl
  have hup := changedBy_int hn (show 0 ≤ n + 1 by omega)
  rw [q, Quotation.quotableForms, Quotation.requireForm, if_pos hforms, run_inScope,
    hsuite]
  exact atQuoteLevel_run _ hup

include hl

omit hform hsuite hn hlevel in
theorem answer_unquote_of_visit {o : Except Error Value}
    (hvisit : visit (x.operatorsOnly w) call.tree (w.quoting n) = (o, s)) :
    answer visit x f (.unquote none call.tree) { w.quoting n with recursive := w.recursive } =
      (o, { s with recursive := w.recursive }) := by
  rw [answer_unquote hl]
  exact congrArg (fun p => (p.1, { p.2 with recursive := w.recursive })) hvisit

theorem run_q {code : Value}
    (hvisit : visit (x.operatorsOnly w) call.tree (w.quoting n) = (.ok v, s))
    (hlift : lift x.capture? v { s with recursive := w.recursive } = (.ok code, t))
    (hcode : IsFinished code) :
    run visit x f (q call) w = (.ok code, { t with quoteLevels := w.quoteLevels }) := by
  have hfinish : finishQuote call code = .give code := by
    rw [finishQuote, markers_of_isUnmarked hcode.1 hcode.2, hform]
    rfl
  rw [run_q_eq hform hsuite hn hlevel, run_need_ok (answer_unquote_of_visit hl hvisit),
    run_need_ok (r := .lift v) hlift, hfinish]
  rfl

theorem run_q_of_error {e : Error}
    (hvisit : visit (x.operatorsOnly w) call.tree (w.quoting n) = (.error e, s)) :
    ∃ t, run visit x f (q call) w = (.error e, t) := by
  rw [run_q_eq hform hsuite hn hlevel, run_need_error (answer_unquote_of_visit hl hvisit)]
  exact ⟨_, rfl⟩

end

end

/-! ## The use of a captured macro -/

/-- The visit first calls the macro `f` on the tree, as an expression macro without arguments. -/
def FirstApplies (y : Expander) (s : World) (extent : Extent) (v : Value) (f : Macro)
    (tree : Value) : Prop :=
  ∃ i t b, FirstCalls (fun expand visit =>
      visitTo (fun z u => z.walk expand visit u) y extent none v) s i t ∧
    y.bound? i.name t = (.ok (some b), t) ∧ b.same (.transformer f) = true ∧
    i.call.form = .expr ∧ i.call.args = .list [] ∧ i.call.tree.unlabelled = tree.unlabelled

theorem exists_of_unlabelled_calling (huse : use.brackets? = some (head, arg))
    (hv : v.unlabelled = (use.calling g).completed.unlabelled) :
    ∃ as callee brackets tree, v = .node .subscript as ∧ get? as "value" = some callee ∧
      callee.candidate? = .ok (some (.str g, .list [])) ∧ get? as "slice" = some brackets ∧
      brackets.attr "value" = .ok tree ∧ tree.unlabelled = arg.completed.unlabelled := by
  have hidden {k : Kind} {name : String} (h : name ∈ k.fieldNames) : Attrs.isHidden name = false :=
    Kind.isHidden_of_mem h
  obtain ⟨as, bs, c, rfl, -, hslice, hindex, hctx, -⟩ := exists_of_brackets? huse
  rw [calling, completed_node, Quotation.fields_set_value hslice hctx] at hv
  obtain ⟨ds, rfl, hds⟩ := exists_of_unlabelled_eq hv
  obtain ⟨callee, hvalue, hcallee⟩ :=
    Option.map_eq_some_iff.mp ((hds "value" (hidden (k := .subscript) (by decide))).trans rfl)
  obtain ⟨brackets, hbrackets, hindexed⟩ :=
    Option.map_eq_some_iff.mp ((hds "slice" (hidden (k := .subscript) (by decide))).trans rfl)
  rw [completed_node] at hcallee hindexed
  obtain ⟨es, rfl, hes⟩ := exists_of_unlabelled_eq hcallee
  obtain ⟨fs, rfl, hfs⟩ := exists_of_unlabelled_eq hindexed
  have hfields : (node .index bs).fields = [("value", arg)] := by
    have hkind : Kind.index.fields = [.req "value"] := rfl
    simp [fields, hkind, field?, Field.req, hindex]
  rw [hfields] at hfs
  obtain ⟨tree, htree, harg⟩ :=
    Option.map_eq_some_iff.mp ((hfs "value" (hidden (k := .index) (by decide))).trans rfl)
  obtain ⟨id, hid, hg⟩ :=
    Option.map_eq_some_iff.mp ((hes "id" (hidden (k := .name) (by decide))).trans rfl)
  have hid' : id = .str g := eq_str_of_unlabelled hg
  refine ⟨ds, _, _, tree, rfl, hvalue, ?_, hbrackets, attr_of_get? htree, harg⟩
  simp only [candidate?, kind?, attr_of_get? hid, hid']
  rfl

theorem firstApplies_of_captured {y : Expander} {s : World} {f : Macro}
    (huse : use.brackets? = some (head, arg)) (hs : s.Captured f g)
    (hy : Bindings.get? y.bindings g = none) (extent : Extent) :
    FirstApplies y s extent (use.calling g).completed f arg.completed := by
  obtain ⟨b, hb, hsame⟩ := hs.bound
  have htruthy : b.isTruthy := by
    cases b with
    | transformer f' => rfl
    | _ => cases hsame
  -- The visit starts by giving labels to the tree, which leaves the bindings as they are.
  have hfirst (s' : World) (hs' : s'.globals = s.globals) : ∃ i t,
      (∀ expand visit, visitTree (fun z u => z.walk expand visit u) y none
        (use.calling g).completed s' = expand i t) ∧
      y.bound? i.name t = (.ok (some b), t) ∧ i.call.form = .expr ∧ i.call.args = .list [] ∧
        i.call.tree.unlabelled = arg.completed.unlabelled := by
    have hknown : y.known? (s'.labelling (use.calling g).completed) g = some b := by
      have hglobals : (s'.labelling (use.calling g).completed).globals = s.globals := hs'
      rw [known?, if_neg (by simpa using hs.named), find?_eq_or, hy, hglobals, hb]
      simp [Option.filter, htruthy]
    obtain ⟨as, callee, brackets, tree, hv, hcallee, hcandidate, hbrackets, htree, harg⟩ :=
      exists_of_unlabelled_calling huse
        (unlabelled_labelled (use.calling g).completed s'.journal.next)
    refine ⟨⟨.str g, (node .subscript as).sourceOrExplain false,
      ⟨.expr, tree, none, .list [], none, .node .subscript as⟩⟩, _, fun expand visit => ?_,
      bound?_of_known? hknown, rfl, rfl, harg⟩
    rw [visitTree_none_run, hv]
    exact walk_of_known? hcallee hcandidate hbrackets htree hknown expand visit
  cases extent with
  | current =>
    obtain ⟨i, t, hrun, hbound, hcall⟩ := hfirst s rfl
    refine ⟨i, t, b, fun expand visit e u he => ?_, hbound, hsame, hcall⟩
    exact congrArg Prod.fst ((hrun expand visit).trans he)
  | recursive =>
    obtain ⟨i, t, hrun, hbound, hcall⟩ := hfirst { s with recursive := true } rfl
    refine ⟨i, t, b, fun expand visit e u he => ?_, hbound, hsame, hcall⟩
    exact congrArg Prod.fst ((hrun expand visit).trans he)
  | once =>
    obtain ⟨i, t, hrun, hbound, hcall⟩ := hfirst { s with recursive := false } rfl
    refine ⟨i, t, b, fun expand visit e u he => ?_, hbound, hsame, hcall⟩
    exact congrArg Prod.fst (Act.bind_error ((hrun expand visit).trans he))

/-! ## Hygiene -/

/-- The call of `q` is for a use of the macro `f` that is bound to `m`: it quotes `h[m][arg]`, where
`h` may have another name. In `arg`, and in `m` itself, nothing is left to be called that is bound
globally or unquotes. -/
structure QuotesUse (x : Expander) (w : World) (call : Call) (operator m : String) (f : Macro)
    (arg : Value) : Prop where
  distinct : x.bindings.Distinct
  orderly : w.Orderly
  level : ∃ n, w.quoteLevels.current = .int n ∧ 0 ≤ n
  known : x.known? w operator = some (.transformer Quotation.hygienic)
  bound : x.find? w m = some (.transformer f)
  bare : ∀ b, (x.operatorsOnly w).known? w m = some b → b.isName = false
  form : call.form = .expr
  suite : call.suite = none
  use : ∃ head op name, call.tree.brackets? = some (head, arg) ∧
    head.brackets? = some (op, name) ∧ op.isNameOf operator = true ∧ name.isNameOf m = true ∧
      w.journal.latest name = name
  labelled : call.tree.hasLabels = true
  quotable : call.tree.isQuotable = true
  node : arg.isNode = true
  inert : (x.operatorsOnly w).invokesNone w arg = true

section

variable {x : Expander} {w : World} {call : Call} {operator m : String} {f : Macro} {arg : Value}

theorem find?_of_known? {name : String} {b : Binding} (h : x.known? w name = some b) :
    x.find? w name = some b ∧ name ≠ "" := by
  unfold known? at h
  split at h
  · cases h
  next hne => exact ⟨(Option.filter_eq_some_iff.mp h).1, by simpa using hne⟩

theorem QuotesUse.quotes (h : x.QuotesUse w call operator m f arg) {n : Int}
    (hn : 0 ≤ n) : (x.operatorsOnly w).Quotes (w.quoting n) operator m := by
  obtain ⟨hfind, hne⟩ := find?_of_known? h.known
  have hoperator := find?_operatorsOnly_of_isQuotationOperator h.distinct h.orderly.distinct hfind
    (by decide)
  have hagain : ((x.operatorsOnly w).operatorsOnly w).find? w m = (x.operatorsOnly w).find? w m :=
    find?_operatorsOnly_operatorsOnly h.distinct h.orderly.distinct
  refine ⟨?_, ⟨n + 1, rfl, by omega⟩, h.bare, fun b hb => h.bare b ?_⟩
  · change (x.operatorsOnly w).known? w operator = _
    rw [known?, if_neg (by simpa using hne), hoperator]
    rfl
  · rw [← hb]
    change _ = ((x.operatorsOnly w).operatorsOnly w).known? w m
    rw [known?, known?, hagain]

/-- The quote is code for a call of the name that the macro has been captured under. -/
theorem QuotesUse.run_q (h : x.QuotesUse w call operator m f arg) (depth : Nat) (f₀ : Macro) :
    if (x.operatorsOnly w).passesOver w arg then
      ∃ code g t, run (visitAt (depth + 2)) x f₀ (q call) w = (.ok code, t) ∧
        lower code = .ok (call.tree.calling g).completed ∧ t.Captured f g
    else ∃ e t, run (visitAt (depth + 2)) x f₀ (q call) w = (.error e, t) := by
  obtain ⟨n, hlevel, hn⟩ := h.level
  obtain ⟨head, op, name, huse, hhead, hop, hname, hlatest⟩ := h.use
  obtain ⟨as, -, -, htree, -⟩ := exists_of_brackets? huse
  have hknown : (x.operatorsOnly w).known? (w.quoting n) = (x.operatorsOnly w).known? w := rfl
  have hinert := (invokesNone_congr hknown arg).trans h.inert
  have hquotable := h.quotable
  have hl := h.labelled
  rw [htree] at huse hquotable hl
  have hvisit := (h.quotes hn).visitAt_use depth huse hhead hop hname hl hlatest h.node hinert
  rw [passesOver_congr hknown] at hvisit
  split
  next hpasses =>
    rw [if_pos hpasses] at hvisit
    obtain ⟨cs, u, s, hvisit, hs, hbody, hu⟩ := hvisit
    have hglobals : s.globals = w.globals := by rw [hs]; rfl
    have hnames : s.names = w.names := by rw [hs]; rfl
    have hfind : x.find? { s with recursive := w.recursive } m = some (.transformer f) := by
      rw [← h.bound, find?_eq_or, find?_eq_or, hglobals]
    obtain ⟨bs, rfl⟩ := exists_of_isNameOf hu
    have hid := attr_of_get? (k := .name) (isNameOf_node.mp hu).1
    obtain ⟨g, t, hcapture, ht⟩ :=
      captured_capture? (w := { s with recursive := w.recursive })
        (h.orderly.of_eq hglobals hnames) hid hfind
    obtain ⟨code, hlift, hcode, hlower⟩ := lift_use huse hquotable hbody hu hcapture
    rw [← htree] at hvisit hlower
    have hrun := Expander.run_q (f := f₀) h.form h.suite h.labelled hlevel hn hvisit hlift hcode
    exact ⟨code, g, _, hrun, hlower _, ht.tidy, ht.nameOf, ht.bound, ht.named⟩
  next hpasses =>
    rw [if_neg hpasses] at hvisit
    obtain ⟨e, s, hvisit⟩ := hvisit
    rw [← htree] at hvisit
    obtain ⟨t, hrun⟩ := run_q_of_error (f := f₀) h.form h.suite h.labelled hlevel hn hvisit
    exact ⟨e, t, hrun⟩

/-- An expander with `h` and with a macro that is bound to `m`. -/
def withHygiene : Expander :=
  ⟨[("h", .transformer Quotation.hygienic), ("m", .transformer echo)], "example.py"⟩

def nameOf (id : String) : Value := .node .name [("id", .str id), ("ctx", .node .load [])]

def bracketsOf (head arg : Value) : Value :=
  .node .subscript
    [("value", head), ("slice", .node .index [("value", arg)]), ("ctx", .node .load [])]

def quoteOfUse (arg : Value) : Call :=
  let tree := bracketsOf (bracketsOf (nameOf "h") (nameOf "m")) arg
  ⟨.expr, (tree.labelled 0).1, none, .list [], none, bracketsOf (nameOf "q") tree⟩

theorem quotesUse_quoteOfUse (arg : Value) (hn : (arg.labelled 7).1.isNode)
    (hquotable : (quoteOfUse arg).tree.isQuotable)
    (hinert : (withHygiene.operatorsOnly (.start (.ofQueue []))).invokesNone
      (.start (.ofQueue [])) (arg.labelled 7).1) :
    withHygiene.QuotesUse (.start (.ofQueue [])) (quoteOfUse arg) "h" "m" echo
      (arg.labelled 7).1 where
  distinct := by decide
  orderly := ⟨fun _ _ h => (by cases h), by decide, rfl⟩
  level := ⟨0, rfl, by decide⟩
  known := rfl
  bound := rfl
  bare _ h := (by cases h)
  form := rfl
  suite := rfl
  use := ⟨((bracketsOf (nameOf "h") (nameOf "m")).labelled 0).1, ((nameOf "h").labelled 0).1,
    ((nameOf "m").labelled 2).1, rfl, rfl, rfl, rfl, rfl⟩
  labelled := hasLabels_labelled _ 0
  quotable := hquotable
  node := hn
  inert := hinert

end

end Expander

end TreeMacros
