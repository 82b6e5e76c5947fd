import TreeMacros.Proofs.Hygiene

/-!
# Quoting leaves other macros alone

Which macros are called in a run is told by what the run depends on: if other macros could do anything
else when they are called, and the outcome stays the same, then they are not called. The expander for
the operators in a quote has no other bindings of its own, but global bindings are in its sight too. So
it calls operators only, whatever the tree, exactly if each macro that has been captured is an operator,
or hidden by an operator that the expander of the quote has under the same name.
-/

namespace TreeMacros

open Quotation (finishQuote assignTo q)
open Act (attempt bind_ok)
open Act (Agree Keeps agree_throw agree_get agree_lift)

variable {name : String} {b : Binding}

namespace Expander

/-! ## Which macros are called -/

/-- A way to call what a name is bound to. -/
abbrev Applying := Visit → Expander → Binding → Call → Expansion Answered

/-- Expands one invocation, where calls are made in some way. -/
def expandBy (apply : Applying) (visit : Visit) (x : Expander) (i : Invocation) : Expansion Value := do
  let call := i.call
  let location := formatLocation x.filename call.invocation (some i.source)
  match ← x.bound? i.name with
  | none => throw (.fault (.noKey i.name.repr))
  | some b =>
    match ← attempt (apply visit x b call) with
    | .error e => throw (e.atUse (useSite location call.form i.name.display))
    | .ok a =>
      settle visit x call.invocation (← takeOutput visit x location a)

/-- Visits a tree, where calls are made in some way. -/
def visitBy (apply : Applying) : Nat → Visit
  | 0 => fun _ _ => throw (.fault .tooDeep)
  | depth + 1 => fun x v => x.walk (x.expandBy apply (visitBy apply depth)) (visitBy apply depth) v

theorem visitBy_apply (depth : Nat) : visitBy apply depth = visitAt depth := by
  induction depth with
  | zero => rfl
  | succ depth ih =>
    rw [visitBy, ih]
    rfl

/-- What is called in a run is bound with `p`: the outcome is the same if calls of anything else have
other outcomes. -/
def CallsOnly {α : Type} (p : Binding → Bool) (act : Visit → Expansion α) (depth : Nat) (w : World) :
    Prop :=
  ∀ apply : Applying, (∀ visit x b call, p b = true → apply visit x b call = Expander.apply visit x b call) →
    act (visitBy apply depth) w = act (visitAt depth) w

/-! ## What the expander for operators can see -/

/-- Each global binding is to an operator, or its name is one of the given ones. -/
structure OthersNamed (hidden : String → Bool) (w : World) : Prop where
  distinct : Bindings.Distinct w.globals
  named : ∀ name b, Bindings.get? w.globals name = some b →
    isQuotationOperator b = true ∨ hidden name = true

/-- The expander has operators only, and among them some under the given names. -/
structure Hides (hidden : String → Bool) (x : Expander) : Prop where
  distinct : x.bindings.Distinct
  operators : ∀ name b, Bindings.get? x.bindings name = some b → isQuotationOperator b = true
  bound : ∀ name, hidden name = true → ∃ b, Bindings.get? x.bindings name = some b

/-- What a state becomes in which others are named. -/
def StaysNamed (hidden : String → Bool) (w t : World) : Prop := OthersNamed hidden w → OthersNamed hidden t

instance (hidden : String → Bool) : World.Allows (OthersNamed hidden) (StaysNamed hidden) where
  refl _ h := h
  trans _ _ _ h h' hw := h' (h hw)
  records _ _ _ _ _ _ h := ⟨h.distinct, h.named⟩
  stable _ _ hw h := h hw
  enter _ _ h := ⟨h.distinct, h.named⟩
  mode _ _ _ h hw := ⟨(h ⟨hw.distinct, hw.named⟩).distinct, (h ⟨hw.distinct, hw.named⟩).named⟩

section

variable {hidden : String → Bool} {x : Expander} {w : World} {name : String} {b : Binding}

theorem Hides.isQuotationOperator (hx : Hides hidden x) (hw : OthersNamed hidden w)
    (h : x.find? w name = some b) : isQuotationOperator b := by
  rw [find?_eq_or] at h
  cases hname : Bindings.get? x.bindings name with
  | some c =>
    rw [hname] at h
    cases h
    exact hx.operators name b hname
  | none =>
    rw [hname] at h
    rcases hw.named name b h with hop | hhidden
    · exact hop
    · obtain ⟨c, hc⟩ := hx.bound name hhidden
      rw [hname] at hc
      cases hc

theorem Hides.operatorsOnly (hx : Hides hidden x) (hw : OthersNamed hidden w) :
    Hides hidden (x.operatorsOnly w) where
  distinct := distinct_bindings_operatorsOnly hw.distinct
  operators := by
    intro name b h
    rw [get?_bindings_operatorsOnly hx.distinct hw.distinct] at h
    exact (Option.filter_eq_some_iff.mp h).2
  bound := by
    intro name hname
    obtain ⟨b, hb⟩ := hx.bound name hname
    refine ⟨b, ?_⟩
    rw [get?_bindings_operatorsOnly hx.distinct hw.distinct, find?_eq_or, hb]
    simp [Option.filter, hx.operators name b hb]

private theorem bound?_cases (x : Expander) (n : Value) (w : World) :
    (∃ e, x.bound? n w = (.error e, w)) ∨ x.bound? n w = (.ok none, w) ∨
      ∃ name b, x.bound? n w = (.ok (some b), w) ∧ x.find? w name = some b := by
  by_cases hs : ∃ s, n = .str s
  · obtain ⟨s, rfl⟩ := hs
    have hrun : x.bound? (.str s) w = (.ok (x.find? w s), w) := rfl
    cases hfind : x.find? w s with
    | none => exact .inr (.inl (hrun.trans (by rw [hfind])))
    | some b => exact .inr (.inr ⟨s, b, hrun.trans (by rw [hfind]), hfind⟩)
  · unfold bound?
    cases hh : n.isHashable with
    | false => exact .inl ⟨_, rfl⟩
    | true =>
      right
      left
      cases n with
      | str s => exact absurd ⟨s, rfl⟩ hs
      | _ => rfl

theorem Hides.keeps_capture? (hx : Hides hidden x) (body : Value) :
    Keeps (StaysNamed hidden) (x.capture? body) := by
  intro w hw
  unfold capture?
  cases hname : body.attr "id" with
  | error e => exact hw
  | ok n =>
    rw [Act.lift_bind_ok rfl]
    rcases bound?_cases x n w with ⟨e, hbound⟩ | hbound | ⟨name, b, hbound, hfind⟩
    · rw [Act.bind_error hbound]
      exact hw
    · rw [bind_ok hbound]
      exact hw
    · rw [bind_ok hbound]
      have hop := hx.isQuotationOperator hw hfind
      dsimp only
      split
      · exact hw
      · cases hname : Bindings.nameOf? w.globals b with
        | some known =>
          rw [bind_ok (Expansion.captureGlobally_of_eq_some hname n)]
          exact hw
        | none =>
          rw [bind_ok (Expansion.captureGlobally_of_eq_none hname n)]
          refine ⟨hw.distinct.insert _ b, fun other c hc => ?_⟩
          have hc' : Bindings.get? (Bindings.insert w.globals (w.names.fresh n).1 b) other = some c := hc
          rw [Bindings.get?_insert] at hc'
          split at hc'
          · cases hc'
            exact .inl hop
          · exact hw.named other c hc'

end

/-! ## Runs in which calls of others do not matter -/

section

variable {hidden : String → Bool} {x : Expander} {apply : Applying} {visit visit' : Visit}

private theorem visitsAgree_hides (hx : Hides hidden x) (h : ∀ y, Hides hidden y → ∀ v,
      Agree (OthersNamed hidden) (StaysNamed hidden) (visit y v) (visit' y v)) :
    VisitsAgree (OthersNamed hidden) (StaysNamed hidden) visit visit' x where
  visits := h x hx
  unquotes suite v w hw :=
    ((agree_visitTree (h _ (hx.operatorsOnly hw)) suite v).inMode true) w hw
  scope s act act' hact := by
    cases s with
    | quote delta | step delta =>
      exact agree_get.bind fun _ => (agree_lift _).bind fun _ => hact.within
        (fun _ hw => ⟨hw.distinct, hw.named⟩) fun _ _ ht hw =>
          ⟨(ht ⟨hw.distinct, hw.named⟩).distinct, (ht ⟨hw.distinct, hw.named⟩).named⟩
  capture := hx.keeps_capture?
  fresh _ _ hw := ⟨hw.distinct, hw.named⟩

/-- What is bound to an invoked name is an operator, and operators are called the same way. -/
private theorem agree_expandBy (hx : Hides hidden x)
    (hoperators : ∀ visit x b call, Expander.isQuotationOperator b →
      apply visit x b call = Expander.apply visit x b call)
    (h : ∀ y, Hides hidden y → ∀ v, Agree (OthersNamed hidden) (StaysNamed hidden) (visit y v) (visit' y v))
    (i : Invocation) :
    Agree (OthersNamed hidden) (StaysNamed hidden) (x.expand visit i) (x.expandBy apply visit' i) := by
  intro w hw
  unfold expand expandBy
  rcases bound?_cases x i.name w with ⟨e, hbound⟩ | hbound | ⟨name, b, hbound, hfind⟩
  · rw [Act.bind_error hbound, Act.bind_error hbound]
    exact ⟨rfl, refl w⟩
  · rw [bind_ok hbound, bind_ok hbound]
    exact ⟨rfl, refl w⟩
  · rw [bind_ok hbound, bind_ok hbound]
    dsimp only
    rw [hoperators visit' x b i.call (hx.isQuotationOperator hw hfind)]
    refine ((agree_apply (visitsAgree_hides hx h) b i.call).attempt.bind fun r => ?_) w hw
    cases r with
    | error e => exact agree_throw _
    | ok a => exact (agree_takeOutput (visitsAgree_hides hx h) _ a).bind fun _ => agree_settle (h x hx) _ _

theorem agree_visitBy (hidden : String → Bool) (hoperators : ∀ visit x b call, Expander.isQuotationOperator b →
      apply visit x b call = Expander.apply visit x b call) (depth : Nat) (x : Expander)
    (hx : Hides hidden x) (v : Value) :
    Agree (OthersNamed hidden) (StaysNamed hidden) (visitAt depth x v) (visitBy apply depth x v) := by
  induction depth generalizing x v with
  | zero => exact agree_throw _
  | succ depth ih => exact agree_walk (ih x hx) (agree_expandBy hx hoperators ih) v

end

/-! ## Quotes -/

/-- Whatever is bound globally is an operator, or the expander has an operator under its name. -/
def HidesOthers (x : Expander) (w : World) : Prop :=
  ∀ name b, Bindings.get? w.globals name = some b →
    isQuotationOperator b = true ∨ (Bindings.get? x.bindings name).any isQuotationOperator = true

section

variable {x : Expander} {w : World} {apply : Applying}

private abbrev hiddenBy (x : Expander) (name : String) : Bool :=
  (Bindings.get? x.bindings name).any isQuotationOperator

private theorem hides_operatorsOnly (hx : x.bindings.Distinct) (hw : Bindings.Distinct w.globals) :
    Hides (hiddenBy x) (x.operatorsOnly w) where
  distinct := distinct_bindings_operatorsOnly hw
  operators := by
    intro name b h
    rw [get?_bindings_operatorsOnly hx hw] at h
    exact (Option.filter_eq_some_iff.mp h).2
  bound := by
    intro name hname
    obtain ⟨b, hb, hop⟩ := (Option.any_eq_true _ _).mp hname
    refine ⟨b, ?_⟩
    rw [get?_bindings_operatorsOnly hx hw, find?_eq_or, hb]
    simp [Option.filter, hop]

theorem unquote_visitBy (hx : x.bindings.Distinct) (hw : Bindings.Distinct w.globals)
    (h : x.HidesOthers w)
    (hoperators : ∀ visit x b call, isQuotationOperator b →
      apply visit x b call = Expander.apply visit x b call)
    (depth : Nat) (suite : Option ListLabel) (v : Value) :
    unquote (visitBy apply depth) x suite v w = unquote (visitAt depth) x suite v w := by
  have hvisit := agree_visitBy (hiddenBy x) hoperators depth (x.operatorsOnly w)
    (hides_operatorsOnly hx hw)
  exact (((agree_visitTree hvisit suite v).inMode true) w ⟨hw, h⟩).1

section

variable {visit visit' : Visit} {m : Macro} {call : Call}

private theorem run_need_congr {r : Request} {next : r.Reply → Program}
    (hanswer : answer visit' x m r w = answer visit x m r w)
    (hnext : ∀ a t, run visit' x m (next a) t = run visit x m (next a) t) :
    run visit' x m (.need r next) w = run visit x m (.need r next) w := by
  match hr : answer visit x m r w with
  | (.ok a, t) => rw [run_need_ok hr, run_need_ok (hanswer.trans hr), hnext]
  | (.error e, t) => rw [run_need_error hr, run_need_error (hanswer.trans hr)]

private theorem run_finishQuote (code : Value) :
    run visit' x m (finishQuote call code) = run visit x m (finishQuote call code) := by
  unfold finishQuote
  cases code.markers .quoteMarker with
  | error e => rfl
  | ok markers =>
    cases markers with
    | cons => rfl
    | nil =>
      simp only [Program.ofExcept]
      cases call.form == .block with
      | false => rfl
      | true => cases assignTo call code <;> rfl

/-- After a quote has been visited, no visits follow. -/
theorem run_q_congr (h : ∀ s : World, s.globals = w.globals →
      unquote visit' x call.suite call.tree s = unquote visit x call.suite call.tree s) :
    run visit' x m (q call) w = run visit x m (q call) w := by
  unfold q Quotation.quotableForms Quotation.requireForm
  split
  · rw [run_inScope, run_inScope]
    have hbody (s : World) (hs : s.globals = w.globals) :
        run visit' x m (.need (.unquote call.suite call.tree) fun v =>
            .need (.lift v) fun code => finishQuote call code) s =
          run visit x m (.need (.unquote call.suite call.tree) fun v =>
            .need (.lift v) fun code => finishQuote call code) s :=
      run_need_congr (h s hs) fun v t => run_need_congr rfl fun code u =>
        congrFun (run_finishQuote code) u
    change Expansion.atQuoteLevel (.int 1) _ w = Expansion.atQuoteLevel (.int 1) _ w
    cases hlevels : w.quoteLevels.changedBy (.int 1) with
    | error e =>
      unfold Expansion.atQuoteLevel
      rw [bind_ok (Act.get_run w), bind_ok (Act.get_run w), hlevels]
      rfl
    | ok levels => rw [atQuoteLevel_run _ hlevels, atQuoteLevel_run _ hlevels,
        hbody { w with quoteLevels := levels } rfl]
  · rfl

end

private theorem known?_operatorsOnly (hx : x.bindings.Distinct) (hw : Bindings.Distinct w.globals)
    (hne : name ≠ "") (htruthy : b.isTruthy) (hb : Bindings.get? w.globals name = some b)
    (hop : isQuotationOperator b = false) (hhidden : hiddenBy x name = false) :
    (x.operatorsOnly w).known? w name = some b := by
  have hnone : Bindings.get? (x.operatorsOnly w).bindings name = none := by
    rw [get?_bindings_operatorsOnly hx hw, find?_eq_or]
    cases hname : Bindings.get? x.bindings name with
    | none => simp [hb, Option.filter, hop]
    | some c =>
      have hc : isQuotationOperator c = false := by simpa [hiddenBy, hname] using hhidden
      simp [Option.filter, hc]
  rw [known?, if_neg (by simpa using hne), find?_eq_or, hnone, hb]
  simp [Option.filter, htruthy]

private theorem expandBy_of_error {visit : Visit} {i : Invocation} {e : Error} {t : World}
    (hbound : x.bound? i.name w = (.ok (some b), w))
    (happly : apply visit x b i.call w = (.error e, t)) : (x.expandBy apply visit i w).2 = t := by
  have hattempt : attempt (apply visit x b i.call) w = (.ok (.error e), t) := by
    rw [attempt, happly]
  unfold expandBy
  rw [bind_ok hbound]
  dsimp only
  rw [bind_ok hattempt]
  rfl

/-- Brackets after a name that is known are an invocation, and what it is bound to is called. -/
private theorem unquote_of_known? (depth : Nat)
    (hknown : (x.operatorsOnly w).known? w name = some b) :
    ∃ v, ∀ (apply : Applying) (e : Error) (note : World → World),
      (∀ visit y call s, apply visit y b call s = (.error e, note s)) →
        (unquote (visitBy apply (depth + 1)) x none v w).2 =
          { note { w with recursive := true } with recursive := w.recursive } := by
  refine ⟨((bracketsOf (nameOf name) (nameOf "x")).labelled 0).1, fun apply e note happly => ?_⟩
  have hlabels := Value.hasLabels_labelled (bracketsOf (nameOf name) (nameOf "x")) 0
  have htree := visitTree_none_run (visitBy apply (depth + 1)) (x.operatorsOnly w)
    ((bracketsOf (nameOf name) (nameOf "x")).labelled 0).1 { w with recursive := true }
  rw [Value.labelled_of_hasLabels hlabels, World.labelling_of_hasLabels hlabels] at htree
  have hknown' : (x.operatorsOnly w).known? { w with recursive := true } name = some b := hknown
  obtain ⟨i, hname, hwalk⟩ : ∃ i : Invocation, i.name = .str name ∧
      visitBy apply (depth + 1) (x.operatorsOnly w) ((bracketsOf (nameOf name) (nameOf "x")).labelled 0).1
          { w with recursive := true } =
        (x.operatorsOnly w).expandBy apply (visitBy apply depth) i { w with recursive := true } :=
    ⟨_, rfl, walk_of_known? rfl rfl rfl rfl hknown' _ _⟩
  have hbound := bound?_of_known? hknown'
  rw [← hname] at hbound
  have hexpand := expandBy_of_error hbound (happly (visitBy apply depth) _ i.call _)
  rw [← hwalk] at hexpand
  exact congrArg (fun t : World => { t with recursive := w.recursive })
    ((congrArg Prod.snd htree).trans hexpand)

/-- A visit to a tree in which nothing is collected gives it back. -/
private theorem visitAt_of_collect {v u : Value} {s t : World} (depth : Nat) (hn : v.isNode)
    (hgives : givesAllItems v) (hlabel : Act.label v w = (.ok u, s))
    (hcollect : x.collect u s = (.ok [], t)) :
    visitTree (visitAt (depth + 1)) x none v w = (.ok u, t) ∧ u.unlabelled = v.unlabelled := by
  rw [Act.label_run] at hlabel
  cases hlabel
  have hsame := Value.unlabelled_labelled v w.journal.next
  have hnode : (v.labelled w.journal.next).1.isNode := by
    rw [← Value.isNode_unlabelled, hsame, Value.isNode_unlabelled, hn]
  have hfollows := follows_collect (x := x) hnode (Value.hasLabels_labelled v _)
    ((givesAllItems_labelled v _).trans hgives) (w.labelling v)
  refine ⟨(visitTree_none_run _ x v w).trans ?_, hsame⟩
  unfold Expander.collect at hcollect
  match hrun : Collection.collect x (v.labelled w.journal.next).1 ⟨w.labelling v, []⟩ with
  | (.ok (), d) =>
    rw [hrun] at hcollect
    obtain ⟨hfound, hworld⟩ := Prod.mk.inj hcollect
    have hnil : d.found = [] := Except.ok.inj hfound
    rcases hfollows d hrun with ⟨-, hwalk⟩ | ⟨i, m, b, -, -, hmem⟩
    · exact (hwalk _ _).trans (by rw [hworld])
    · rw [hnil] at hmem
      cases hmem
  | (.error e, d) =>
    rw [hrun] at hcollect
    cases hcollect

/-- A call of anything but an operator is noted down and fails. -/
private def noting (texts : List String) : Applying := fun visit x b call =>
  if isQuotationOperator b then Expander.apply visit x b call
  else fun w => (.error (.fault .tooDeep), { w with printed := w.printed ++ texts })

/-- Quoting calls no other macros, whatever is quoted, exactly if none is bound globally but where an
operator hides it. Code in which nothing is invoked that the expander for operators can see comes back
as it is. -/
theorem unquote_callsOnly_iff (x : Expander) (w : World) (depth : Nat) (hx : x.bindings.Distinct)
    (hw : Bindings.Distinct w.globals) (hnamed : Bindings.get? w.globals "" = none)
    (htruthy : ∀ name b, Bindings.get? w.globals name = some b → b.isTruthy = true) :
    ((∀ suite v, CallsOnly isQuotationOperator (fun visit => unquote visit x suite v) (depth + 1) w) ↔
      x.HidesOthers w) ∧
    (x.HidesOthers w → ∀ m call, CallsOnly isQuotationOperator
      (fun visit => run visit x m (Quotation.q call)) (depth + 1) w) ∧
    (∀ v u s t, v.isNode = true → givesAllItems v = true →
      Act.label v { w with recursive := true } = (.ok u, s) →
      (x.operatorsOnly w).collect u s = (.ok [], t) →
        unquote (visitAt (depth + 1)) x none v w = (.ok u, { t with recursive := w.recursive }) ∧
          u.unlabelled = v.unlabelled) := by
  refine ⟨⟨fun h name b hb => ?_, fun h suite v apply hoperators => ?_⟩,
    fun h m call apply hoperators => ?_, fun v u s t hn hgives hlabel hcollect => ?_⟩
  · by_contra hnot
    rw [not_or, Bool.not_eq_true, Bool.not_eq_true] at hnot
    have hne : name ≠ "" := by
      rintro rfl
      rw [hnamed] at hb
      cases hb
    have hknown := known?_operatorsOnly hx hw hne (htruthy name b hb) hb hnot.1 hnot.2
    obtain ⟨v, hv⟩ := unquote_of_known? depth hknown
    have hout (texts : List String) :
        (unquote (visitAt (depth + 1)) x none v w).2.printed = w.printed ++ texts := by
      have hsame : unquote (visitBy (noting texts) (depth + 1)) x none v w =
          unquote (visitAt (depth + 1)) x none v w :=
        h none v (noting texts) fun visit y c call hc => by simp only [noting, hc, if_true]
      have hrun := hv (noting texts) (.fault .tooDeep) (fun s => { s with printed := s.printed ++ texts })
        fun visit y call s => by simp only [noting, hnot.1, Bool.false_eq_true, if_false]
      rw [← hsame, hrun]
    simpa using (hout ["called"]).symm.trans (hout [])
  · exact unquote_visitBy hx hw h hoperators (depth + 1) suite v
  · apply run_q_congr
    intro s hs
    exact unquote_visitBy hx (hs ▸ hw) (by rwa [HidesOthers, hs]) hoperators (depth + 1) _ _
  · obtain ⟨hvisit, hsame⟩ := visitAt_of_collect depth hn hgives hlabel hcollect
    refine ⟨?_, hsame⟩
    have hrun : unquote (visitAt (depth + 1)) x none v w =
        ((visitTree (visitAt (depth + 1)) (x.operatorsOnly w) none v { w with recursive := true }).1,
          { (visitTree (visitAt (depth + 1)) (x.operatorsOnly w) none v
            { w with recursive := true }).2 with recursive := w.recursive }) := rfl
    rw [hrun, hvisit]

end

/-- The state after `f` has been captured under the name `g`. -/
private def capturedAs (g : String) (f : Macro) : World :=
  { World.start (.ofQueue []) with globals := [(g, .transformer f)] }

private theorem truthy_capturedAs {g : String} {f : Macro} (name : String) (b : Binding)
    (h : Bindings.get? (capturedAs g f).globals name = some b) : b.isTruthy := by
  have hmem := Bindings.mem_of_get? h
  cases List.mem_singleton.mp hmem
  rfl

/-- Where an operator has been captured, quoting calls operators only. -/
theorem unquote_callsOnly_operators :
    withHygiene.HidesOthers (capturedAs "g" Quotation.hygienic) ∧
      ∀ suite v, CallsOnly isQuotationOperator (fun visit => unquote visit withHygiene suite v) 3
        (capturedAs "g" Quotation.hygienic) := by
  have hhides : withHygiene.HidesOthers (capturedAs "g" Quotation.hygienic) := by
    intro name b h
    have hmem := Bindings.mem_of_get? h
    cases List.mem_singleton.mp hmem
    exact .inl (by decide)
  have hiff := unquote_callsOnly_iff withHygiene (capturedAs "g" Quotation.hygienic) 2 (by decide)
    (by decide) rfl truthy_capturedAs
  exact ⟨hhides, hiff.1.mpr hhides⟩

/-- Where another macro has been captured, it is called in quoted code by its global name. -/
theorem unquote_captured :
    ¬ withHygiene.HidesOthers (capturedAs "g" echo) ∧
      (unquote (visitAt 3) withHygiene none (bracketsOf (nameOf "g") (nameOf "b"))
        (capturedAs "g" echo)).1.toOption.map (·.isNameOf "b") = some true := by
  refine ⟨fun h => ?_, by decide +kernel⟩
  rcases h "g" (.transformer echo) rfl with hop | hhidden
  · exact absurd hop (by decide)
  · exact absurd hhidden (by decide)

end Expander

end TreeMacros
