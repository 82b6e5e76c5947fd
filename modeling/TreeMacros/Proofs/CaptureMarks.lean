import TreeMacros.Proofs.Capturing
import TreeMacros.Proofs.Locations
import TreeMacros.Quotation.Operators

/-!
# Marking a name for capture

In a quote, the operator `h` marks a name for capture. The visit to `h[m][x]` that expands the
quotation operators puts such a mark in the place of `h[m]` and passes over `x`, or fails there.
-/

namespace TreeMacros

open Value hiding none set
open Attrs (get? get?_set isHidden)
open Act (assign attempt bind_ok get_run lift_bind_ok)
open Act (Reads Yields yields_pure)

variable {n : Int} {as : Attrs} {u brackets head : Value}

namespace Value

variable {k : Kind} {as bs : Attrs} {v head x : Value} {m : String}

/-! ## The trees -/

def isNameOf (m : String) : Value → Bool
  | node .name as =>
    (match get? as "id" with
      | some (str s) => s == m
      | _ => false) && (get? as "ctx").any (·.isOf .context)
  | _ => false

/-- What stands before the brackets, and the index in them. -/
def brackets? : Value → Option (Value × Value)
  | node .subscript as => do
    let head ← get? as "value"
    let brackets ← get? as "slice"
    let ctx ← get? as "ctx"
    if brackets.isKind .index && ctx.isOf .context then
      return (head, ← get? brackets.attrs "value")
    else .none
  | _ => .none

theorem isNameOf_node : (node .name as).isNameOf m ↔
    get? as "id" = some (str m) ∧ ∃ c, get? as "ctx" = some c ∧ c.isOf .context := by
  rw [isNameOf, Bool.and_eq_true, Option.any_eq_true]
  refine and_congr_left fun _ => ?_
  split
  next s hs => simp [hs]
  next hs => simpa using hs m

theorem exists_of_isNameOf (h : v.isNameOf m) : ∃ as, v = node .name as := by
  unfold isNameOf at h
  split at h
  · exact ⟨_, rfl⟩
  · cases h

theorem isNode_of_isNameOf (h : v.isNameOf m) : v.isNode := by
  obtain ⟨as, rfl⟩ := exists_of_isNameOf h
  rfl

theorem exists_of_brackets? (h : v.brackets? = some (head, x)) :
    ∃ as bs c, v = node .subscript as ∧ get? as "value" = some head ∧
      get? as "slice" = some (node .index bs) ∧ get? bs "value" = some x ∧
        get? as "ctx" = some c ∧ c.isOf .context := by
  unfold brackets? at h
  split at h
  next as =>
    simp only [Option.bind_eq_bind, Option.bind_eq_some_iff] at h
    obtain ⟨_, hvalue, brackets, hslice, c, hctx, h⟩ := h
    split at h
    next hc =>
      obtain ⟨hindex, hcontext⟩ := Bool.and_eq_true_iff.mp hc
      simp only [Option.bind_eq_some_iff] at h
      obtain ⟨_, hx, h⟩ := h
      cases h
      cases brackets with
      | node k bs =>
        obtain rfl : k = .index := by simpa [isKind, kind?] using hindex
        exact ⟨as, bs, c, rfl, hvalue, hslice, hx, hctx, hcontext⟩
      | _ => cases hindex
    next => cases h
  next => cases h

theorem exists_of_unlabelled_eq (h : v.unlabelled = (node k bs).unlabelled) :
    ∃ as, v = node k as ∧ ∀ name, isHidden name = false →
      (get? as name).map unlabelled = (get? bs name).map unlabelled := by
  cases v with
  | node j as =>
    have hattrs : j = k ∧ unlabelledAttrs as = unlabelledAttrs bs := by
      simpa [unlabelled] using h
    obtain ⟨rfl, has⟩ := hattrs
    refine ⟨as, rfl, fun name hname => ?_⟩
    rw [← get?_unlabelledAttrs hname, has, get?_unlabelledAttrs hname]
  | _ => simp [unlabelled] at h

theorem eq_str_of_unlabelled (h : v.unlabelled = str m) : v = str m := by
  cases v <;> simp_all [unlabelled]

/-! ## Passes over what is to be captured -/

theorem isNameOf_unlabelled (v : Value) : v.unlabelled.isNameOf m = v.isNameOf m := by
  have hid : isHidden "id" = false := Kind.isHidden_of_mem (k := .name) (by decide)
  have hctx : isHidden "ctx" = false := Kind.isHidden_of_mem (k := .name) (by decide)
  cases v with
  | node k as =>
    by_cases hk : k = .name
    · subst hk
      simp only [unlabelled, isNameOf, get?_unlabelledAttrs hid, get?_unlabelledAttrs hctx,
        Option.any_map, isOf_unlabelled]
      rcases get? as "id" with _ | u
      · rfl
      · cases u <;> simp [unlabelled]
    · rw [unlabelled, isNameOf.eq_def, isNameOf.eq_def]
      simp [hk]
  | _ => simp [unlabelled, isNameOf]

theorem isNameOf_of_set {name : String} (hbs : (node .name bs).isNameOf m)
    (h : unlabelledAttrs as = Attrs.set (unlabelledAttrs bs) name v) (hid : name ≠ "id")
    (hctx : name = "ctx" → v.isOf .context) : (node .name as).isNameOf m := by
  rw [← isNameOf_unlabelled, unlabelled] at hbs ⊢
  rw [isNameOf_node] at hbs ⊢
  obtain ⟨hm, c, hc, hcontext⟩ := hbs
  rw [h, get?_set, get?_set, if_neg hid.symm]
  refine ⟨hm, ?_⟩
  by_cases hname : "ctx" = name
  · exact ⟨v, if_pos hname, hctx hname.symm⟩
  · exact ⟨c, by rw [if_neg hname, hc], hcontext⟩

section

variable {β : Type} {onNode : Kind → Attrs → Parts β → β}
  {onRest : Value → List (Item β) → List (Item β) → β} {visit : String → Item β → Expansion Value}

theorem yields_rebuild_name (has : (node .name as).isNameOf m)
    (hbs : (node .name bs).isNameOf m)
    (hvisit : ∀ c, c.isOf .context →
      Yields (visit "ctx" ⟨c, c.fold onNode onRest⟩) fun r => r.isOf .context) :
    Yields (rebuild visit .name bs (foldAttrs onNode onRest as)) fun r => r.isNameOf m := by
  obtain ⟨hid, c, hctx, hc⟩ := isNameOf_node.mp has
  obtain ⟨k, cs, rfl, -⟩ := exists_of_isOf hc
  have hgo : rebuild.go visit (foldAttrs onNode onRest as) Kind.name.fieldNames bs =
      (rebuildAttr (visit "ctx") bs "ctx" (foldPart onNode onRest (node k cs)) >>= pure) := by
    have hnames : Kind.name.fieldNames = ["id", "ctx"] := rfl
    rw [hnames, rebuild.go, lookup_foldAttrs, hid]
    change (pure bs >>= _) = _
    rw [pure_bind, rebuild.go, lookup_foldAttrs, hctx]
    rfl
  rw [rebuild, hgo, bind_pure]
  refine Yields.bind (Q := fun es => (node .name es).isNameOf m) ?_ fun es hes =>
    yields_pure hes
  refine (hvisit _ hc).bind fun r hr => ?_
  obtain ⟨j, ds, rfl, -⟩ := exists_of_isOf hr
  have hhidden : isHidden "ctx" = false := Kind.isHidden_of_mem (k := .name) (by decide)
  refine (yields_assign hhidden bs (node j ds)).mono fun es hes =>
    isNameOf_of_set hbs hes (by simp) fun _ => ?_
  rw [isOf_unlabelled, hr]

def capturing (body : Value) (name : String) : Value :=
  node .captureLater [("body", body), ("name", str name)]

theorem yields_rebuild_capturing {body : Value} (name : String) (hbody : body.isNameOf m)
    (hvisit : Yields (visit "body" ⟨body, body.fold onNode onRest⟩) fun r => r.isNameOf m) :
    Yields (rebuild visit .captureLater [("body", body), ("name", str name)]
      (foldAttrs onNode onRest [("body", body), ("name", str name)]))
      fun r => ∃ b, r = capturing b name ∧ b.isNameOf m := by
  obtain ⟨as, rfl⟩ := exists_of_isNameOf hbody
  intro w
  obtain ⟨r, t, hrun, hr⟩ := hvisit w
  obtain ⟨bs, rfl⟩ := exists_of_isNameOf hr
  refine ⟨capturing (node .name bs) name, t, ?_, _, rfl, hr⟩
  have hgo : rebuild.go visit (foldAttrs onNode onRest [("body", node .name as), ("name", str name)])
      Kind.captureLater.fieldNames [("body", node .name as), ("name", str name)] w =
        (.ok [("body", node .name bs), ("name", str name)], t) := by
    have hattr : rebuildAttr (visit "body") [("body", node .name as), ("name", str name)] "body"
        (foldPart onNode onRest (node .name as)) w =
          (.ok [("body", node .name bs), ("name", str name)], t) := bind_ok hrun
    exact bind_ok hattr
  exact bind_ok hgo

end

section

variable {c : Value}

theorem yields_place_context (hc : c.isOf .context) (mode : LocationMode)
    (line column : Value) : Yields (c.place mode line column) fun r => r.isOf .context := by
  obtain ⟨k, cs, rfl, hk⟩ := exists_of_isOf hc
  have hplain : k.located = false ∧ k.fieldNames = [] := by
    cases k <;> first | (cases hk; done) | exact ⟨rfl, rfl⟩
  have hrun : (node k cs).place mode line column = (pure (node k cs) : Expansion Value) := by
    rw [place, fold_node, placeAttrs, hplain.1]
    simp only [rebuild, hplain.2]
    rfl
  rw [hrun]
  exact yields_pure hc

theorem yields_placeContexts_context (hc : c.isOf .context) (context : Context) :
    Yields (c.placeContexts context) fun r => r.isOf .context := by
  obtain ⟨k, cs, rfl, hk⟩ := exists_of_isOf hc
  have hplain : lacksContext k cs = false ∧ Context.ofChildren k = [] ∧ k.fieldNames = [] := by
    cases k <;> first | (cases hk; done) | exact ⟨rfl, rfl, rfl⟩
  have hrun : (node k cs).placeContexts context = (pure (node k cs) : Expansion Value) := by
    rw [placeContexts, fold_node, hplain.1, hplain.2.1]
    simp only [rebuild, hplain.2.2]
    rfl
  rw [hrun]
  exact yields_pure hc

theorem yields_place_name (h : v.isNameOf m) (line column : Value) :
    Yields (v.place .reference line column) fun r => r.isNameOf m := by
  obtain ⟨as, rfl⟩ := exists_of_isNameOf h
  obtain ⟨hline, hcolumn, -⟩ := isHidden_location
  have hattr {bs : Attrs} (name : String) (value : Value) (hbs : (node .name bs).isNameOf m)
      (hname : isHidden name = false) (hid : name ≠ "id") (hctx : name ≠ "ctx") :
      Yields (placeAttr .reference bs name value : Expansion _) fun r =>
        (node .name r.1).isNameOf m = true := by
    have hset : Yields (Act.assign bs name value) fun es => (node .name es).isNameOf m :=
      (yields_assign hname bs value).mono fun es hes =>
        isNameOf_of_set hbs hes hid fun hn => (hctx hn).elim
    unfold placeAttr
    split
    · exact hset.bind fun es hes => yields_pure hes
    · exact hset.bind fun es hes => yields_pure hes
    · exact yields_pure hbs
    · exact yields_pure hbs
  rw [place, fold_node]
  refine Yields.bind (Q := fun r => (node .name r.1).isNameOf m) ?_ fun r hr =>
    yields_rebuild_name h hr fun c hc => yields_place_context hc _ _ _
  refine (hattr "lineno" line h hline (by simp) (by simp)).bind fun r hr => ?_
  exact (hattr "col_offset" column hr hcolumn (by simp) (by simp)).bind fun r hr => yields_pure hr

theorem yields_placeContexts_name (h : v.isNameOf m) (context : Context) :
    Yields (v.placeContexts context) fun r => r.isNameOf m := by
  obtain ⟨as, rfl⟩ := exists_of_isNameOf h
  obtain ⟨-, c, hget, hc⟩ := isNameOf_node.mp h
  have hctx : lacksContext .name as = false := by
    obtain ⟨k, cs, rfl, -⟩ := exists_of_isOf hc
    rw [lacksContext, hget]
    rfl
  rw [placeContexts, fold_node, hctx]
  exact yields_rebuild_name h h fun c hc => yields_placeContexts_context hc _

theorem yields_fix_capturing (h : v.isNameOf m) (name : String) (reference : Value) :
    Yields (fixLocations .reference reference (capturing v name) >>= fun r => r.fixContexts)
      fun r => ∃ b, r = capturing b name ∧ b.isNameOf m := by
  have hcontexts {b : Value} (hb : b.isNameOf m) :
      Yields (capturing b name).fixContexts
        fun r => ∃ b, r = capturing b name ∧ b.isNameOf m :=
    yields_rebuild_capturing name hb (yields_placeContexts_name hb _)
  refine Yields.bind (Q := fun r => ∃ b, r = capturing b name ∧ b.isNameOf m) ?_ ?_
  · unfold fixLocations
    split
    · exact yields_rebuild_capturing name h (yields_place_name h _ _)
    · exact yields_pure ⟨v, rfl, h⟩
  · rintro r ⟨b, rfl, hb⟩
    exact hcontexts hb

end

end Value

namespace Quotation

def hygienic : Macro :=
  ⟨.builtIn "h", "h", "h", some "mcpyrate.quotes", false, false, .eager h⟩

end Quotation

namespace World

/-- The states differ in their records only. -/
def Recorded (w t : World) : Prop :=
  t = { w with
    journal := t.journal, counts := t.counts, log := t.log, warnings := t.warnings,
    printed := t.printed }

instance : AdmitsRecords Recorded where
  refl _ := rfl
  trans w t s h h' := by
    unfold Recorded at h h' ⊢
    rw [h']
    rw [h]
  records _ _ _ _ _ _ := rfl

end World

namespace Expander

open Quotation (q h expandUnquoted hygienic)

variable {x : Expander} {visit : Visit} {w s t : World} {m operator : String} {v body : Value}

/-! ## Programs -/

section

variable {f : Macro} {r : Request} {next : r.Reply → Program} {sc : Scope} {p : Program}
  {e : Error}

theorem run_need_ok {a : r.Reply} (hr : answer visit x f r w = (.ok a, t)) :
    run visit x f (.need r next) w = run visit x f (next a) t := by
  have hattempt : attempt (answer visit x f r) w = (.ok (.ok a), t) := by
    rw [attempt, hr]
  exact bind_ok hattempt

theorem run_need_error (hr : answer visit x f r w = (.error e, t)) :
    run visit x f (.need r next) w = (.error e, t) := by
  have hattempt : attempt (answer visit x f r) w = (.ok (.error e), t) := by
    rw [attempt, hr]
  exact bind_ok hattempt

theorem run_inScope (sc : Scope) (p : Program) :
    run visit x f (.inScope sc p) w = inScope sc (run visit x f p) w := by
  have hattempt : attempt (inScope sc (run visit x f p)) w =
    (.ok (inScope sc (run visit x f p) w).1, (inScope sc (run visit x f p) w).2) := rfl
  refine (bind_ok hattempt).trans ?_
  generalize inScope sc (run visit x f p) w = out
  obtain ⟨_ | _, _⟩ := out <;> rfl

end

theorem atQuoteLevel_run {α : Type} {delta : Value} {levels : Levels} (act : Expansion α)
    (hlevels : w.quoteLevels.changedBy delta = .ok levels) :
    Expansion.atQuoteLevel delta act w = ((act { w with quoteLevels := levels }).1,
      { (act { w with quoteLevels := levels }).2 with quoteLevels := w.quoteLevels }) := by
  rw [Expansion.atQuoteLevel, bind_ok (get_run w), lift_bind_ok hlevels]
  rfl

theorem changedBy_int {l : Levels} {d : Int} (hl : l.current = .int n) (h : 0 ≤ n + d) :
    l.changedBy (.int d) = .ok { l with entered := .int (n + d) :: l.entered } := by
  have hplus : l.current.plus (.int d) = .ok (.int (n + d)) := by
    rw [hl]
    rfl
  rw [Levels.changedBy, hplus]
  change l.setTo (.int (n + d)) = _
  rw [Levels.setTo]
  exact if_neg (by omega)

/-! ## Capturing a name -/

/-- An expander for the quotation operators in quoted code. -/
def operatorsOnly (x : Expander) (w : World) : Expander :=
  ⟨(x.allBindings w).filter fun b => isQuotationOperator b.2, x.filename⟩

theorem source_of_isNameOf (hbody : body.isNameOf m) :
    body.source false = .ok (Text.strip m) := by
  obtain ⟨as, rfl⟩ := exists_of_isNameOf hbody
  obtain ⟨hid, -⟩ := isNameOf_node.mp hbody
  have hprint : Source.print false (.node .name as) .plain 0 = .ok m := by
    rw [Source.print, fold_node, Source.Subject.print, Source.Subject.plain]
    change (Source.Subject.part ⟨_, _, _, _⟩ "id" >>= fun p => Source.write p.value) = _
    rw [Source.Subject.part, Source.Subject.part?, lookup_foldAttrs, hid]
    rfl
  rw [source, sourceText, hprint]
  rfl

section

variable {f : Macro}

/-- The visits leave the tree as it is, and so does what has become of it. -/
structure Untouched (visit : Visit) (x : Expander) (w : World) (v : Value) : Prop where
  labelled : v.hasLabels = true
  latest : w.journal.latest v = v
  visited : ∀ s : World, s.globals = w.globals → visit x v s = (.ok v, s)
  unquoted : ∀ s : World, s.globals = w.globals → visit (x.operatorsOnly s) v s = (.ok v, s)

theorem Untouched.inMode (hv : Untouched visit x w v) (recursive : Bool) {y : Expander}
    (hy : ∀ s : World, s.globals = w.globals → visit y v s = (.ok v, s)) :
    Expansion.inMode recursive (visitTree visit y none v) w = (.ok v, w) := by
  have hrun := visitTree_none_run visit y v { w with recursive }
  rw [labelled_of_hasLabels hv.labelled, World.labelling_of_hasLabels hv.labelled] at hrun
  rw [Expansion.inMode, Act.within, hrun, hy { w with recursive } rfl]

theorem run_expandUnquoted (hv : Untouched visit x w v) (next : Value → Program) :
    run visit x f (expandUnquoted v next) w = run visit x f (next v) w := by
  have hlevel : answer visit x f .quoteLevel w = (.ok w.quoteLevels.current, w) := rfl
  have hlatest : answer visit x f (.latest v) w = (.ok v, w) :=
    congrArg (fun u => (Except.ok u, w)) hv.latest
  have hrecursive : answer visit x f (.visit .recursive none v) w = (.ok v, w) :=
    hv.inMode true hv.visited
  have hunquote : answer visit x f (.unquote none v) w = (.ok v, w) :=
    hv.inMode true fun s hs => by
      have hx : x.operatorsOnly w = x.operatorsOnly s := by
        rw [operatorsOnly, operatorsOnly, allBindings, allBindings, hs]
      exact (congrArg (fun y => visit y v s) hx).trans (hv.unquoted s hs)
  rw [expandUnquoted, run_need_ok hlevel]
  generalize w.quoteLevels.current.same (.int 0) = outside
  cases outside with
  | true => exact (run_need_ok hrecursive).trans (run_need_ok hlatest)
  | false => exact (run_need_ok hunquote).trans (run_need_ok hlatest)

theorem run_h {call : Call} (hform : call.form = .expr) (hn : w.quoteLevels.current = .int n)
    (hquoted : 1 ≤ n) (hname : call.tree.isNameOf m)
    (htree : Untouched visit x w call.tree) :
    run visit x f (h call) w = (.ok (capturing call.tree (Text.strip m)), w) := by
  have hlevel : answer visit x f .quoteLevel w = (.ok (.int n), w) := by
    rw [← hn]
    rfl
  have hforms : ([Form.expr].contains call.form) := by
    rw [hform]
    rfl
  have hinside : ¬ ((int n).toInt?.getD 0) < 1 := by
    change ¬ n < 1
    omega
  have hdown := changedBy_int hn (show 0 ≤ n + -1 by omega)
  have htree' (levels : Levels) : Untouched visit x { w with quoteLevels := levels } call.tree :=
    ⟨htree.labelled, htree.latest, htree.visited, htree.unquoted⟩
  rw [h, Quotation.unquoteForm, Quotation.requireForm, if_pos hforms, run_need_ok hlevel,
    if_neg hinside, run_inScope, source_of_isNameOf hname]
  refine (atQuoteLevel_run _ hdown).trans ?_
  have hrun := run_expandUnquoted (f := f) (htree' { w.quoteLevels with
    entered := .int (n + -1) :: w.quoteLevels.entered }) fun tree =>
      .give (.node .captureLater [("body", tree), ("name", .str (Text.strip m))])
  rw [Program.ofExcept, hrun]
  rfl

end

/-! ## The expander for quotation operators -/

section

variable {name : String}

theorem find?_eq_or (x : Expander) (w : World) (name : String) :
    x.find? w name = (Bindings.get? x.bindings name).or (Bindings.get? w.globals name) := by
  rw [find?]
  cases Bindings.get? x.bindings name <;> rfl

theorem get?_bindings_operatorsOnly (hx : x.bindings.Distinct) (hw : Bindings.Distinct w.globals) :
    Bindings.get? (x.operatorsOnly w).bindings name =
      (x.find? w name).filter isQuotationOperator := by
  have hall : Bindings.Distinct (x.allBindings w) := hw.insertAll x.bindings
  rw [operatorsOnly, Bindings.get?_filter hall, allBindings, Bindings.get?_insertAll hx, find?_eq_or]

theorem distinct_bindings_operatorsOnly (hw : Bindings.Distinct w.globals) :
    (x.operatorsOnly w).bindings.Distinct :=
  List.Nodup.sublist (List.filter_sublist.map _) (hw.insertAll x.bindings)

theorem find?_operatorsOnly_operatorsOnly (hx : x.bindings.Distinct)
    (hw : Bindings.Distinct w.globals) :
    ((x.operatorsOnly w).operatorsOnly w).find? w name = (x.operatorsOnly w).find? w name := by
  rw [find?_eq_or, get?_bindings_operatorsOnly (distinct_bindings_operatorsOnly hw) hw, find?_eq_or,
    get?_bindings_operatorsOnly hx hw]
  cases hfind : (x.find? w name).filter isQuotationOperator with
  | some b =>
    have hb := (Option.filter_eq_some_iff.mp hfind).2
    simp [Option.filter, hb]
  | none =>
    cases Bindings.get? w.globals name with
    | none => rfl
    | some b => cases hb : isQuotationOperator b <;> simp [Option.filter, hb]

theorem find?_operatorsOnly_of_isQuotationOperator (hx : x.bindings.Distinct)
    (hw : Bindings.Distinct w.globals) {b : Binding} (hb : x.find? w name = some b)
    (hoperator : isQuotationOperator b) : (x.operatorsOnly w).find? w name = some b := by
  rw [find?_eq_or, get?_bindings_operatorsOnly hx hw, hb]
  simp [Option.filter, hoperator]

end

theorem passesOver_of_isNameOf (hname : v.isNameOf m)
    (hbare : ∀ b, x.known? w m = some b → b.isName = false) : x.passesOver w v := by
  obtain ⟨as, rfl⟩ := exists_of_isNameOf hname
  exact passesOver_of_bare (isNameOf_node.mp hname).1 hbare

theorem visitAt_of_isNameOf (depth : Nat) (hname : v.isNameOf m) (hl : v.hasLabels)
    (hbare : ∀ b, x.known? w m = some b → b.isName = false) :
    visitAt (depth + 1) x v w = (.ok v, w) := by
  exact walk_of_passesOver _ _ (isNode_of_isNameOf hname) hl (passesOver_of_isNameOf hname hbare)

theorem exists_body_of_unlabelled {b : Value} {name : String} {r : Value}
    (hr : r.unlabelled = (capturing b name).unlabelled) (hb : b.isNameOf m) :
    ∃ as u, r = .node .captureLater as ∧ get? as "body" = some u ∧ u.isNameOf m ∧
      get? as "name" = some (.str name) := by
  have hbody : isHidden "body" = false :=
    Kind.isHidden_of_mem (k := .captureLater) (by decide)
  have hname : isHidden "name" = false :=
    Kind.isHidden_of_mem (k := .captureLater) (by decide)
  obtain ⟨as, rfl, hget⟩ := exists_of_unlabelled_eq hr
  obtain ⟨u, hu, hub⟩ := Option.map_eq_some_iff.mp ((hget "body" hbody).trans rfl)
  obtain ⟨n, hn, hstr⟩ := Option.map_eq_some_iff.mp ((hget "name" hname).trans rfl)
  have hu' : u.isNameOf m := by
    rw [← isNameOf_unlabelled, hub, isNameOf_unlabelled, hb]
  exact ⟨as, u, rfl, hu, hu', eq_str_of_unlabelled hstr ▸ hn⟩

theorem children_captureLater {name : String} (hbody : get? as "body" = some u)
    (hu : u.isNode) (hname : get? as "name" = some (.str name)) :
    children .captureLater as = [u] := by
  have hfields : Kind.captureLater.fieldNames = ["body", "name"] := rfl
  cases u with
  | node k bs => simp [children, hfields, childrenAt, hbody, hname]
  | _ => cases hu

theorem passesOver_captureLater {name : String} (hbody : get? as "body" = some u)
    (hname : get? as "name" = some (.str name)) (hn : u.isNode)
    (hu : x.passesOver w u) : x.passesOver w (.node .captureLater as) := by
  rw [passesOver_plain rfl (by decide), children_captureLater hbody hn hname, List.all_cons, hu]
  rfl

theorem settle_capturing (depth : Nat) (hbody : body.isNameOf m)
    (hbare : ∀ b, x.known? w m = some b → b.isName = false) (name : String) (reference : Value) :
    ∃ as u t, settle (visitAt (depth + 1)) x reference (capturing body name) w =
        (.ok (.node .captureLater as), t) ∧ w.Recorded t ∧
      get? as "body" = some u ∧ u.isNameOf m ∧
      (node .captureLater as).hasLabels = true := by
  let fix : Expansion Value :=
    fixLocations .reference reference (capturing body name) >>= fun r => r.fixContexts
  have hkeeps : Act.Keeps World.Recorded fix :=
    (keeps_fixLocations _ _ _).bind fun r => keeps_placeContexts r _
  obtain ⟨_, s, hrun, b, rfl, hb⟩ := yields_fix_capturing hbody name reference w
  have hs : w.Recorded s := hkeeps.of_run hrun
  have hsettle : settle (visitAt (depth + 1)) x reference (capturing body name) =
      fix >>= fun r => Act.label r >>= fun fixed => get >>= fun w =>
        if w.recursive then visitAt (depth + 1) x fixed else pure fixed := by
    rw [bind_assoc]
    rfl
  have hlabel := Act.label_run (capturing b name) s
  have hlabelled := hasLabels_labelled (capturing b name) s.journal.next
  have ht : w.Recorded (s.labelling (capturing b name)) := by
    have hkeeps := (keeps_label (R := World.Recorded) (capturing b name)).of_run hlabel
    exact IsTrans.trans _ _ _ hs hkeeps
  obtain ⟨as, u, hr, hget, hu, hname⟩ := exists_body_of_unlabelled
    (unlabelled_labelled (capturing b name) s.journal.next) hb
  rw [hr] at hlabel hlabelled
  refine ⟨as, u, s.labelling (capturing b name), ?_, ht, hget, hu, hlabelled⟩
  rw [hsettle, bind_ok hrun, bind_ok hlabel, bind_ok (get_run _)]
  split
  · refine walk_of_passesOver _ _ rfl hlabelled (passesOver_captureLater hget hname (isNode_of_isNameOf hu) ?_)
    refine passesOver_of_isNameOf hu fun b hb => hbare b ?_
    rwa [known?_of_globals (by rw [ht])] at hb
  · rfl

theorem expand_hygienic (depth : Nat) {i : Invocation} (hi : i.name = .str operator)
    (hknown : x.known? w operator = some (.transformer hygienic))
    (hform : i.call.form = .expr) (hn : w.quoteLevels.current = .int n) (hquoted : 1 ≤ n)
    (hname : i.call.tree.isNameOf m)
    (htree : Untouched (visitAt (depth + 1)) x w i.call.tree)
    (hbare : ∀ b, x.known? w m = some b → b.isName = false) :
    ∃ as u t, x.expand (visitAt (depth + 1)) i w = (.ok (.node .captureLater as), t) ∧
      w.Recorded t ∧ get? as "body" = some u ∧ u.isNameOf m ∧
      (node .captureLater as).hasLabels = true := by
  obtain ⟨as, u, t, hsettle, hmore⟩ := settle_capturing depth hname hbare (Text.strip m)
    i.call.invocation
  refine ⟨as, u, t, ?_, hmore⟩
  have hbound : x.bound? i.name w = (.ok (some (.transformer hygienic)), w) := by
    rw [hi]
    exact bound?_of_known? hknown
  have hrun := run_h (f := hygienic) hform hn hquoted hname htree
  have happly : attempt (apply (visitAt (depth + 1)) x (.transformer hygienic) i.call)
      w = (.ok (.ok (.ready (capturing i.call.tree (Text.strip m)))), w) := by
    have hready : apply (visitAt (depth + 1)) x (.transformer hygienic) i.call w =
        (.ok (.ready (capturing i.call.tree (Text.strip m))), w) := bind_ok hrun
    rw [attempt, hready]
  rw [expand, bind_ok hbound]
  exact (bind_ok happly).trans hsettle

theorem walk_of_known? {callee tree : Value} {g : String} {b : Binding}
    (hcallee : get? as "value" = some callee)
    (hcandidate : callee.candidate? = .ok (some (.str g, .list [])))
    (hbrackets : get? as "slice" = some brackets) (htree : brackets.attr "value" = .ok tree)
    (hknown : x.known? w g = some b) (expand : Invocation → Expansion Value) (visit : Visit) :
    x.walk expand visit (.node .subscript as) w =
      expand ⟨.str g, (node .subscript as).sourceOrExplain false,
        ⟨.expr, tree, none, .list [], none, .node .subscript as⟩⟩ w := by
  have hcall : x.isCall (.str g) (.list []) .expr w = (.ok true, w) := by
    rw [isCall_run, hknown]
    rfl
  rw [walk, fold_node, visitNode, bind_ok (get_run w), isIdle_of_known? hknown]
  change visitSubscript x expand _ _ w = _
  rw [visitSubscript, lift_bind_ok (attr_of_get? hcallee), lift_bind_ok hcandidate]
  dsimp only
  rw [bind_ok hcall, if_pos rfl, lift_bind_ok (attr_of_get? hbrackets),
    lift_bind_ok htree]

theorem candidate?_of_isNameOf (h : v.isNameOf m) :
    v.candidate? = .ok (some (.str m, .list [])) := by
  obtain ⟨as, rfl⟩ := exists_of_isNameOf h
  obtain ⟨hid, -⟩ := isNameOf_node.mp h
  simp only [candidate?, kind?, attr_of_get? hid]
  rfl

theorem candidate?_of_brackets? {op name : Value} (h : v.brackets? = some (op, name))
    (hop : op.isNameOf operator) (hname : name.isNameOf m) :
    v.candidate? = .ok (some (.str operator, .list [name])) := by
  obtain ⟨as, bs, c, rfl, hvalue, hslice, hindex, -⟩ := exists_of_brackets? h
  obtain ⟨cs, rfl⟩ := exists_of_isNameOf hop
  obtain ⟨ds, rfl⟩ := exists_of_isNameOf hname
  obtain ⟨hid, -⟩ := isNameOf_node.mp hop
  simp only [candidate?, kind?, attr_of_get? hvalue, attr_of_get? hslice,
    bind, Except.bind, attr_of_get? hindex, attr_of_get? hid]
  rfl

theorem exists_assign (as : Attrs) (name : String) {v : Value} (hn : v.isNode)
    (hl : v.hasLabels) (w : World) :
    ∃ t, assign as name v w = (.ok (Attrs.set as name v), t) ∧ w.Recorded t := by
  have hrun : ∃ t, assign as name v w = (.ok (Attrs.set as name v), t) := by
    unfold Act.assign
    cases Attrs.label? as with
    | none => exact ⟨w, rfl⟩
    | some n =>
      dsimp only
      rw [bind_ok (Act.welcome_of_hasLabels hl w)]
      cases v with
      | node k bs =>
        dsimp only
        by_cases hnew : ((node k bs).label?.isNone || (node k bs).label? !=
            (get? as name).bind (·.label?))
        · rw [if_pos hnew]
          exact ⟨_, rfl⟩
        · rw [if_neg hnew]
          exact ⟨_, rfl⟩
      | _ => cases hn
  obtain ⟨t, ht⟩ := hrun
  exact ⟨t, ht, (keeps_assign (R := World.Recorded) as name v).of_run ht⟩

theorem children_index (hu : get? as "value" = some u) (hn : u.isNode) :
    children .index as = [u] := by
  have hfields : Kind.index.fieldNames = ["value"] := rfl
  cases u with
  | node k bs => simp [children, hfields, childrenAt, hu]
  | _ => cases hn

theorem passesOver_index (hu : get? as "value" = some u) (hn : u.isNode) :
    x.passesOver w (.node .index as) = x.passesOver w u := by
  rw [passesOver_plain rfl (by decide), children_index hu hn, List.all_cons, List.all_nil,
    Bool.and_true]

theorem invokesNone_index (hu : get? as "value" = some u) (hn : u.isNode)
    (h : x.invokesNone w u) : x.invokesNone w (.node .index as) := by
  refine invokesNone_node.mpr ⟨⟨rfl, ?_⟩, fun _ _ c hc => ?_⟩
  · rw [isInvocation, invokes_other x rfl (by simp) (by simp)]
    rfl
  · rw [children_index hu hn] at hc
    rw [List.mem_singleton.mp hc, h]

theorem passesOver_context {c : Value} (hc : c.isOf .context) :
    x.passesOver w c := by
  obtain ⟨k, cs, rfl, hk⟩ := exists_of_isOf hc
  have hplain : itemsField? k = none ∧ k ∉ [Kind.done, .name, .subscript, .constant] ∧
      k.fieldNames = [] := by
    cases k <;> first | (cases hk; done) | exact ⟨rfl, by decide, rfl⟩
  rw [passesOver_plain hplain.1 hplain.2.1, children, hplain.2.2]
  rfl

theorem rebuildAttr_node {β : Type} {onNode : Kind → Attrs → Parts β → β}
    {onRest : Value → List (Item β) → List (Item β) → β} {visit : Item β → Expansion Value}
    {r : Value} (hu : u.isNode) (hr : r.isNode)
    (hrun : visit ⟨u, u.fold onNode onRest⟩ w = (.ok r, t)) (as : Attrs) (name : String) :
    rebuildAttr visit as name (foldPart onNode onRest u) w = assign as name r t := by
  cases u with
  | node k bs =>
    cases r with
    | node j cs => exact bind_ok hrun
    | _ => cases hr
  | _ => cases hu

theorem isNode_of_brackets? {p : Value × Value} (h : v.brackets? = some p) : v.isNode := by
  obtain ⟨as, -, -, rfl, -⟩ := exists_of_brackets? h
  rfl

theorem visitChildren_subscript {onNode : Kind → Attrs → Parts (Expansion Value) → Expansion Value}
    {onRest : Value → List (Item (Expansion Value)) → List (Item (Expansion Value)) →
      Expansion Value} {ctx : Value} (hvalue : get? as "value" = some head)
    (hslice : get? as "slice" = some brackets) (hctx : get? as "ctx" = some ctx) :
    visitChildren .subscript as (foldAttrs onNode onRest as) = (do
      let bs ← rebuildAttr (·.result) as "value" (foldPart onNode onRest head)
      let cs ← rebuildAttr (·.result) bs "slice" (foldPart onNode onRest brackets)
      let ds ← rebuildAttr (·.result) cs "ctx" (foldPart onNode onRest ctx)
      return .node .subscript ds) := by
  have hfields : Kind.subscript.fieldNames = ["value", "slice", "ctx"] := rfl
  rw [visitChildren, rebuild, hfields]
  simp only [rebuild.go, lookup_foldAttrs, hvalue, hslice, hctx, Option.map_some,
    bind_assoc, pure_bind]

/-- An expander that is inside of a quote, where `operator` is the operator `h` and `m` does not
invoke a macro on its own. -/
structure Quotes (x : Expander) (w : World) (operator m : String) : Prop where
  known : x.known? w operator = some (.transformer Quotation.hygienic)
  level : ∃ n, w.quoteLevels.current = .int n ∧ 1 ≤ n
  bare : ∀ b, x.known? w m = some b → b.isName = false
  bareAgain : ∀ b, (x.operatorsOnly w).known? w m = some b → b.isName = false

section

variable {op name : Value}

theorem Quotes.untouched (hx : x.Quotes w operator m) (depth : Nat) (hname : name.isNameOf m)
    (hl : name.hasLabels) (hlatest : w.journal.latest name = name) :
    Untouched (visitAt (depth + 1)) x w name := by
  refine ⟨hl, hlatest, fun s hs => ?_, fun s hs => ?_⟩
  · exact visitAt_of_isNameOf depth hname hl (known?_of_globals hs ▸ hx.bare)
  · have hagain : x.operatorsOnly s = x.operatorsOnly w := by
      rw [operatorsOnly, operatorsOnly, allBindings, allBindings, hs]
    rw [hagain]
    exact visitAt_of_isNameOf depth hname hl (known?_of_globals hs ▸ hx.bareAgain)

theorem Quotes.visitAt_head (hx : x.Quotes w operator m) (depth : Nat)
    (hhead : head.brackets? = some (op, name)) (hop : op.isNameOf operator)
    (hname : name.isNameOf m) (hl : head.hasLabels)
    (hlatest : w.journal.latest name = name) :
    ∃ as u t, visitAt (depth + 2) x head w = (.ok (.node .captureLater as), t) ∧
      w.Recorded t ∧ get? as "body" = some u ∧ u.isNameOf m ∧
      (node .captureLater as).hasLabels = true := by
  obtain ⟨as, bs, -, rfl, hvalue, hslice, hindex, -⟩ := exists_of_brackets? hhead
  obtain ⟨n, hn, hquoted⟩ := hx.level
  have hlname := hasLabels_of_get? (hasLabels_of_get? hl hslice) hindex
  have hvisit : visitAt (depth + 2) x (.node .subscript as) w = _ :=
    walk_of_known? hvalue (candidate?_of_isNameOf hop) hslice (attr_of_get? hindex) hx.known
      (x.expand (visitAt (depth + 1))) (visitAt (depth + 1))
  rw [hvisit]
  exact expand_hygienic depth rfl hx.known rfl hn hquoted hname
    (hx.untouched depth hname hlname hlatest) hx.bare

/-- In `h[m][x]` the part before the last brackets becomes a marker that is to capture the name `m`,
if the visit passes over `x`; else it fails. -/
theorem Quotes.visitAt_use (hx : x.Quotes w operator m) (depth : Nat) {arg : Value}
    (huse : (node .subscript as).brackets? = some (head, arg))
    (hhead : head.brackets? = some (op, name)) (hop : op.isNameOf operator)
    (hname : name.isNameOf m) (hl : (node .subscript as).hasLabels)
    (hlatest : w.journal.latest name = name) (harg : arg.isNode)
    (hnone : x.invokesNone w arg) :
    if x.passesOver w arg then
      ∃ cs u t, visitAt (depth + 2) x (.node .subscript as) w =
          (.ok (.node .subscript (Attrs.set as "value" (.node .captureLater cs))), t) ∧
        w.Recorded t ∧ get? cs "body" = some u ∧ u.isNameOf m
    else ∃ e t, visitAt (depth + 2) x (.node .subscript as) w = (.error e, t) := by
  have hcandidate := candidate?_of_brackets? hhead hop hname
  obtain ⟨_, bs, c, ⟨⟩, hvalue, hslice, hindex, hctx, hc⟩ := exists_of_brackets? huse
  obtain ⟨cs, u, t, hrun, ht, hbody, hu, hlabelled⟩ := hx.visitAt_head depth hhead hop hname
    (hasLabels_of_get? hl hvalue) hlatest
  obtain ⟨s, hassign, hs⟩ := exists_assign as "value" (v := .node .captureLater cs) rfl hlabelled t
  have hws : w.Recorded s := IsTrans.trans _ _ _ ht hs
  have hknown : x.known? s = x.known? w := known?_of_globals (by rw [hws])
  have hcall : x.isCall (.str operator) (.list [name]) .expr w = (.ok false, w) := by
    rw [isCall_run, hx.known]
    rfl
  -- The outer brackets are no call, since `h` takes no arguments: its children are visited.
  have hchildren : visitAt (depth + 2) x (.node .subscript as) w =
      visitChildren .subscript as (foldAttrs (visitNode x (x.expand (visitAt (depth + 1)))
        (visitAt (depth + 1))) (fun v items _ => visitRest x v items) as) w := by
    rw [visitAt]
    dsimp only
    rw [walk, fold_node, visitNode, bind_ok (get_run w), isIdle_of_known? hx.known]
    change visitSubscript x _ _ _ w = _
    rw [visitSubscript, lift_bind_ok (attr_of_get? hvalue), lift_bind_ok hcandidate]
    dsimp only
    rw [bind_ok hcall]
    rfl
  rw [hchildren, visitChildren_subscript hvalue hslice hctx,
    bind_ok ((rebuildAttr_node (isNode_of_brackets? hhead) rfl hrun as "value").trans hassign)]
  generalize has' : Attrs.set as "value" (.node .captureLater cs) = as'
  have hhidden : isHidden "value" = false := Kind.isHidden_of_mem (k := .index) (by decide)
  have hl' : (node .subscript as').hasLabels :=
    has' ▸ (revised_set hl hhidden hlabelled).hasLabels
  have hslice' : get? as' "slice" = some (.node .index bs) := by
    rw [← has', get?_set, if_neg (by simp), hslice]
  have hctx' : get? as' "ctx" = some c := by
    rw [← has', get?_set, if_neg (by simp), hctx]
  have hindexReads := reads_walk_of_invokesNone (x.expand (visitAt (depth + 1)))
    (visitAt (depth + 1)) (w := s) (v := .node .index bs)
    (isIdle_of_known? ((congrFun hknown operator).trans hx.known)) rfl
    (hasLabels_of_get? hl' hslice')
    (invokesNone_index hindex harg ((invokesNone_congr hknown arg).trans hnone))
  rw [passesOver_index hindex harg, passesOver_congr hknown] at hindexReads
  have hctxReads : Reads (x.walk (x.expand (visitAt (depth + 1))) (visitAt (depth + 1)) c) s true c
      fun _ => True :=
    walk_of_passesOver _ _ (isNode_of_isOf hc) (hasLabels_of_get? hl' hctx')
      (passesOver_context hc)
  have hreads := (reads_rebuildAttr_node hl' rfl hslice' hindexReads).before
    (f := fun cs => rebuildAttr (·.result) cs "ctx" (foldPart (visitNode x
      (x.expand (visitAt (depth + 1))) (visitAt (depth + 1))) (fun v items _ => visitRest x v items)
        c) >>= fun ds => pure (node .subscript ds))
    (bind_ok (reads_rebuildAttr_node hl' (isNode_of_isOf hc) hctx' hctxReads))
  cases hpass : x.passesOver w arg with
  | true =>
    rw [hpass] at hreads
    exact ⟨cs, u, s, has' ▸ hreads, hws, hbody, hu⟩
  | false =>
    rw [hpass] at hreads
    obtain ⟨e, -, hfail⟩ := hreads
    exact ⟨e, s, hfail⟩

end

end Expander

end TreeMacros
