import TreeMacros.Proofs.Capturing
import TreeMacros.Proofs.Items
import TreeMacros.Proofs.Telescoping

/-!
# Stacked invocations

A block can have several macros in its header, and a definition several decorators that are macros.
They are taken out one at a time. Each is called with what is left, and what it gives is visited
anew. The main statement is about macros that give back what they are called with: the order of the
calls, and what is left in the end.
-/

namespace TreeMacros

open Value hiding none set
open Attrs (get? get?_set set)

variable {field : String} {form : Form} {xs ys : List Value} {bs : Attrs}

/-- The macro notes down its call, and gives back the tree that it is called with. -/
def Macro.Echoes (m : Macro) : Prop :=
  ∃ f, m.transformer = .eager f ∧ ∀ visit x call w, ∃ t,
    Expander.run visit x m (f call) w = (.ok call.tree, t) ∧
      t.log = w.log ++ [.called (Expander.noteOf m.label w.recursive call)] ∧
      t.globals = w.globals ∧ t.recursive = w.recursive

/-- The calls between two states, in recursive mode. -/
structure World.Calls (w : World) (entries : List LogEntry) (t : World) : Prop where
  log : t.log = w.log ++ entries
  globals : t.globals = w.globals
  recursive : t.recursive = w.recursive

namespace World

variable {w s t : World} {entries entries' : List LogEntry}

theorem Steady.calls (h : Steady w t) : Calls w [] t :=
  ⟨by rw [h.log, List.append_nil], h.globals, h.recursive⟩

theorem Calls.trans (h : Calls w entries s) (h' : Calls s entries' t) :
    Calls w (entries ++ entries') t :=
  ⟨by rw [h'.log, h.log, List.append_assoc], h'.globals.trans h.globals,
    h'.recursive.trans h.recursive⟩

theorem OnlyJournal.steady (h : OnlyJournal w t) : Steady w t := by
  rw [OnlyJournal] at h
  rw [h]
  exact ⟨rfl, rfl, rfl⟩

end World

namespace Expander

variable {x : Expander} {visit : Visit} {w t : World} {name source : String} {m : Macro}
  {call : Call} {fixed : Value}

/-- An invocation of a macro that gives back what it is called with: the tree is filled in and
visited. -/
theorem expand_of_echoes {P : Value → Prop} (visit : Visit) (source : String)
    (hknown : x.known? w name = some (.transformer m)) (hm : m.Echoes)
    (hsome : call.tree.isNone = false)
    (hcheck : ∀ location, checkOutput location call.tree = .ok call.tree)
    (hrec : w.recursive)
    (hfill : ∀ s, ∃ fixed t, fillIn call.invocation call.tree s = (.ok fixed, t) ∧ P fixed ∧
      World.OnlyJournal s t) :
    ∃ fixed t, x.expand visit ⟨.str name, source, call⟩ w = visit x fixed t ∧ P fixed ∧
      World.Calls w [.called (noteOf m.label true call)] t := by
  obtain ⟨f, hf, hrun⟩ := hm
  obtain ⟨s, hs, hlog, hglobals, hrecursive⟩ := hrun visit x call w
  obtain ⟨fixed, t, hfixed, hP, ht⟩ := hfill s
  have hsteady := ht.steady
  have htrec : t.recursive := by rw [hsteady.recursive, hrecursive, hrec]
  refine ⟨fixed, t, ?_, hP, ⟨?_, ?_, ?_⟩⟩
  · rw [expand_eq, Act.bind_ok (outputOf_of_run hknown hf hs hcheck), settle_eq,
      if_neg (by simp [hsome]), Act.bind_ok hfixed, Act.bind_ok (Act.get_run t), if_pos htrec]
  · rw [hsteady.log, hlog, hrec]
  · rw [hsteady.globals, hglobals]
  · rw [htrec, hrec]

/-! ## Traces -/

def IsTrace (c : Value) : Prop :=
  ∃ node name code, coverage node name = .ok code ∧ c.unlabelled = code.unlabelled

/-- Two visits come to the same, but for traces of invocations that the outer one puts in front. -/
def Leaves (inner outer : Except Error Value × World) : Prop :=
  outer.2.log = inner.2.log ∧
    match inner.1, outer.1 with
    | .ok r, .ok r' => ∃ traces, (∀ c ∈ traces, IsTrace c) ∧ r'.spliced = traces ++ r.spliced
    | .error e, .error e' => e' = e
    | _, _ => False

theorem leaves_refl (out : Except Error Value × World) : Leaves out out := by
  refine ⟨rfl, ?_⟩
  cases out.1 with
  | ok r => exact ⟨[], by simp, rfl⟩
  | error e => rfl

theorem Leaves.trans {a b c : Except Error Value × World} (h : Leaves a b) (h' : Leaves b c) :
    Leaves a c := by
  obtain ⟨ra, wa⟩ := a
  obtain ⟨rb, wb⟩ := b
  obtain ⟨rc, wc⟩ := c
  obtain ⟨hlog, h⟩ := h
  obtain ⟨hlog', h'⟩ := h'
  refine ⟨hlog'.trans hlog, ?_⟩
  cases ra <;> cases rb <;> cases rc <;> dsimp only at h h' ⊢
  · exact h'.trans h
  · obtain ⟨traces, htraces, hr⟩ := h
    obtain ⟨traces', htraces', hr'⟩ := h'
    refine ⟨traces' ++ traces, ?_, by rw [hr', hr, List.append_assoc]⟩
    intro c hc
    rcases List.mem_append.mp hc with hc | hc
    · exact htraces' c hc
    · exact htraces c hc

theorem leaves_traced {node : Value}
    (hline : node.hasAttr "col_offset" → node.hasAttr "lineno")
    (act : Expansion Value) (label : Value) (w : World) :
    Leaves (act w) ((act >>= fun r => traced r node label) w) := by
  rcases hact : act w with ⟨e | r, t⟩
  · rw [Act.bind_error hact]
    exact leaves_refl _
  · rw [Act.bind_ok hact, traced_eq]
    split
    · exact leaves_refl _
    next hplace =>
      have hsome : node.hasAttr "lineno" := by
        cases hnone : node.hasAttr "lineno" with
        | true => rfl
        | false =>
          rw [hnone] at hline
          exact absurd (by simpa [hnone] using hplace) (by simpa using hline)
      obtain ⟨line, hget⟩ := Option.isSome_iff_exists.mp hsome
      have hattr : node.attr "lineno" = .ok line := by rw [attr, hget]
      obtain ⟨code, hcode⟩ : ∃ code, coverage node label = .ok code := by
        unfold coverage
        rw [hattr]
        exact ⟨_, rfl⟩
      rw [Act.lift_bind_ok hcode, Act.bind_ok (Act.label_run code t)]
      refine ⟨rfl, [(code.labelled t.journal.next).1], ?_, rfl⟩
      intro c hc
      obtain rfl := List.mem_singleton.mp hc
      exact ⟨node, label, code, hcode, unlabelled_labelled _ _⟩

private theorem spliced_suite (r : Value) : (suite [r]).spliced = r.spliced := by
  rw [suite, flatten_eq, List.flatMap_singleton]
  cases hr : r.spliced <;> rfl

private theorem leaves_suite (act : Expansion Value) (w : World) :
    Leaves (act w) ((act >>= fun r => pure (suite [r])) w) := by
  rcases hact : act w with ⟨e | r, t⟩
  · rw [Act.bind_error hact]
    exact leaves_refl _
  · rw [Act.bind_ok hact]
    exact ⟨rfl, [], by simp, spliced_suite r⟩

theorem leaves_singleton {u : Value} (hn : u.isNode) (depth : Nat) (w : World) :
    Leaves (visitAt depth x u w) (visitAt depth x (.list [u]) w) := by
  cases depth with
  | zero => exact leaves_refl _
  | succ depth =>
    cases hidle : x.isIdle w with
    | true =>
      rw [show visitAt (depth + 1) x u w = (.ok u, w) from walk_of_isIdle _ _ u hidle,
        show visitAt (depth + 1) x (.list [u]) w = (.ok (.list [u]), w) from
          walk_of_isIdle _ _ _ hidle]
      cases u with
      | node => exact leaves_refl _
      | _ => cases hn
    | false =>
      have hsuite : visitAt (depth + 1) x (.list [u]) w =
          (visitAt (depth + 1) x u >>= fun r => pure (.suite [r])) w := by
        rw [visitAt_list, visitRest, Act.bind_ok (Act.get_run w), hidle]
        simp only [List.map_cons, List.map_nil, List.mapM_cons, List.mapM_nil, bind_assoc,
          pure_bind]
        rfl
      rw [hsuite]
      exact leaves_suite _ w

/-! ## One round -/

theorem refill_items {k : Kind} {as : Attrs} {items : List Value}
    (hfield : Attrs.isHidden field = false) (hget : get? as field = some (.list items))
    (rest : List Value) (w : World) :
    ∃ bs t, (refill (.node k as) field rest : Expansion Value) w = (.ok (.node k bs), t) ∧
      (node k bs).unlabelled = (node k (set as field (.list rest))).unlabelled ∧
      World.Steady w t := by
  obtain ⟨bs, t, hrun, hbs⟩ := yields_refill hfield as rest w
  refine ⟨bs, t, ?_, ?_, (keeps_refill as field rest).of_run hrun⟩
  · simp only [refill, hget]
    exact Act.bind_ok hrun
  · rw [unlabelled, unlabelled, hbs, unlabelledAttrs_set, hfield, unlabelled,
      unlabelledItems_eq]
    rfl

/-- All that can be invoked are macros that give back what they are called with. -/
def KnowsEchoes (x : Expander) (w : World) : Prop :=
  ∀ name b, x.known? w name = some b → ∃ m, b = .transformer m ∧ m.Echoes

theorem KnowsEchoes.knowsMacros (h : x.KnowsEchoes w) : x.KnowsMacros w := by
  intro name b hb
  obtain ⟨m, hm, -⟩ := h name b hb
  exact ⟨m, hm⟩

theorem KnowsEchoes.congr (h : x.KnowsEchoes w) (hknown : x.known? t = x.known? w) :
    x.KnowsEchoes t := by
  intro name b hb
  rw [hknown] at hb
  exact h name b hb

/-- What follows `as` in an item, if the form has that. -/
def targetOf? (form : Form) (item : Value) : Option Value :=
  match form with
  | .block =>
    match item with
    | .node .withItem as => some ((get? as "optional_vars").getD .none)
    | _ => none
  | _ => none

theorem targetOf?_shape (form : Form) (item : Value) :
    targetOf? form item.shape = (targetOf? form item).map shape := by
  cases form with
  | block =>
    cases item with
    | node k as =>
      rw [shape_node]
      by_cases hk : k = .withItem
      · subst hk
        have hget : get? (outlineAttrs (fun _ => true) .withItem as) "optional_vars" =
            outlineAt (fun _ => true) as (Field.opt "optional_vars") :=
          get?_outlineAttrs (f := Field.opt "optional_vars") (by decide)
        rw [targetOf?, targetOf?, hget]
        simp only [outlineAt, field?, Field.opt, ↓reduceIte]
        cases get? as "optional_vars" <;> rfl
      · rw [targetOf?.eq_def, targetOf?.eq_def]
        simp [hk]
    | list xs => rw [shape_list]; rfl
    | _ => rfl
  | _ => rfl

/-- The entry is about a call of the macro that the item invokes, with the arguments of the item. -/
def Notes (x : Expander) (w : World) (form : Form) (item : Value) (entry : LogEntry) : Prop :=
  ∃ name args m call, itemReading? form item = some (some (name, args)) ∧
    x.known? w name = some (.transformer m) ∧ entry = .called (noteOf m.label true call) ∧
    call.form = form ∧ call.args.shape = (list args).shape ∧
    call.target.map shape = (targetOf? form item).map shape

/-- What is left of a node when only these of its items are left. A block without items gives way
to its body. -/
def remainder (k : Kind) (as : Attrs) (field : String) (form : Form) (rest : List Value) : Value :=
  if form = .block ∧ rest = [] then .suite (itemsAt as "body")
  else .node k (Attrs.set as field (.list rest))

theorem exists_of_uses {item : Value} (h : x.uses w form item) :
    ∃ head name args b, headOf? form item = some head ∧
      itemReading? form item = some (some (name, args)) ∧
      head.candidate? = .ok (some (.str name, .list args)) ∧ x.known? w name = some b := by
  unfold uses at h
  split at h
  next name args hread =>
    obtain ⟨head, hhead, hread'⟩ := Option.bind_eq_some_iff.mp hread
    cases hb : x.known? w name with
    | none =>
      rw [hb] at h
      cases h
    | some b => exact ⟨head, name, args, b, hhead, hread, candidate?_of_reading? hread', hb⟩
  next => cases h

section

variable {k : Kind} {as : Attrs} {items rest : List Value} {item : Value} {depth : Nat}

private theorem givesSoundLine_shallowCopy (h : (node k as).givesSoundLine)
    (own : String) : ((node k as).shallowCopy own).givesSoundLine := by
  obtain ⟨bs, hcopy, hget⟩ := get?_shallowCopy as k own
  rw [givesSoundLine, attr?_of_location (.inl rfl)] at h
  rwa [hcopy, givesSoundLine, attr?_of_location (.inl rfl),
    hget _ isHidden_location.1]

private theorem optionalVars_attr (hitem : item.isOf .withItem) :
    ∃ target, item.attr "optional_vars" = .ok target ∧ targetOf? .block item = some target := by
  obtain ⟨k, cs, rfl, hk⟩ := exists_of_isOf hitem
  obtain rfl : k = .withItem := by
    revert hk
    cases k <;> decide
  rw [targetOf?]
  cases hget : get? cs "optional_vars" with
  | some u => exact ⟨u, attr_of_get? hget, rfl⟩
  | none => exact ⟨.none, by simp [attr, attr?, hget]; rfl, rfl⟩

private theorem contextExpr_attr {head : Value} (h : headOf? .block item = some head) :
    item.attr "context_expr" = .ok head :=
  itemCandidate_of_headOf? (.inl rfl) h

private theorem checkOutput_list (location : String) (h : ∀ u ∈ xs, u.isNode) :
    checkOutput location (.list xs) = .ok (.list xs) := by
  have hall : xs.all (·.isNode) := List.all_eq_true.mpr h
  simp [checkOutput, elements?, hall]

theorem visitAt_node (depth : Nat) (x : Expander) (k : Kind) (as : Attrs) :
    visitAt (depth + 1) x (.node k as) =
      visitNode x (x.expand (visitAt depth)) (visitAt depth) k as (x.partsOf depth as) := rfl

private theorem visitAt_block (depth : Nat) (h : x.isIdle w = false) :
    visitAt (depth + 1) x (.node .withStmt as) w = visitWith x (x.expand (visitAt depth))
      (.node .withStmt as) (visitChildren .withStmt as (x.partsOf depth as)) w := by
  rw [visitAt_node, visitNode, Act.bind_ok (Act.get_run w), h]
  rfl

private theorem visitAt_decorated (depth : Nat) (hk : k = .functionDef ∨ k = .classDef)
    (h : x.isIdle w = false) :
    visitAt (depth + 1) x (.node k as) w = visitDecorated x (x.expand (visitAt depth))
      (.node k as) (visitChildren k as (x.partsOf depth as)) w := by
  rw [visitAt_node, visitNode, Act.bind_ok (Act.get_run w), h]
  rcases hk with rfl | rfl <;> rfl

/-- After one round: an item has been called, and what is left is visited. -/
def Round (x : Expander) (w : World) (form : Form) (depth : Nat) (v item left' : Value) : Prop :=
  ∃ left t entry, Leaves (visitAt depth x left t) (visitAt (depth + 1) x v w) ∧
    World.Calls w [entry] t ∧ x.Notes w form item entry ∧ left.Sound ∧ left.shape = left'.shape

/-- A macro that gives back what it is called with is called, and what it gives is filled in and
visited. -/
private theorem leaves_of_echoes {P : Value → Prop} {v node : Value} {s : World}
    (hws : World.Steady w s) (hknown : x.known? w name = some (.transformer m)) (hm : m.Echoes)
    (hrec : w.recursive) (hsome : call.tree.isNone = false)
    (hcheck : ∀ location, checkOutput location call.tree = .ok call.tree)
    (hfill : ∀ o, ∃ fixed t, fillIn call.invocation call.tree o = (.ok fixed, t) ∧ P fixed ∧
      World.OnlyJournal o t)
    (hline : node.hasAttr "col_offset" → node.hasAttr "lineno")
    (hrun : visitAt (depth + 1) x v w = (x.expand (visitAt depth) ⟨.str name, source, call⟩ >>=
      fun r => traced r node (.str name)) s) :
    ∃ fixed t, Leaves (visitAt depth x fixed t) (visitAt (depth + 1) x v w) ∧ P fixed ∧
      World.Calls w [.called (noteOf m.label true call)] t := by
  obtain ⟨fixed, t, hexpand, hfixed, hcalls⟩ := expand_of_echoes (visitAt depth) source
    ((congrFun (known?_of_globals hws.globals) name).trans hknown) hm hsome
    hcheck (hws.recursive.trans hrec) hfill
  refine ⟨fixed, t, ?_, hfixed, hws.calls.trans hcalls⟩
  rw [hrun, ← hexpand]
  exact leaves_traced hline _ _ s

theorem round_block (hv : (node .withStmt as).Sound) (hmacros : x.KnowsEchoes w)
    (hitems : get? as "items" = some (.list items))
    (hread : ∀ i ∈ items, (itemReading? .block i).isSome) (hrec : w.recursive)
    (hpop : popFirst (items.map fun i => (i, x.uses w .block i)) = some (item, rest)) :
    x.Round w .block depth (.node .withStmt as) item
      (remainder .withStmt as "items" .block rest) := by
  obtain ⟨items', hitems', hsound⟩ := hv.many "items" .withItem (by decide)
  cases hitems.symm.trans hitems'
  obtain ⟨body, hbody, hbodySound⟩ := hv.many "body" .stmt (by decide)
  have htakes := takes_of_popFirst hpop
  obtain ⟨hmem, huses⟩ := htakes.mem
  obtain ⟨head, name, args, b, hhead, hreading, hcandidate, hknown⟩ := exists_of_uses huses
  obtain ⟨m, rfl, hm⟩ := hmacros name b hknown
  -- The items are gone through, and the first one that invokes a macro is taken out.
  obtain ⟨w₁, hdetect, hsteady⟩ := detect_run (.inl rfl) hmacros.knowsMacros hread
    fun i hi => (hsound i hi).2.givesSoundLine (hsound i hi).1 (by decide)
  obtain ⟨bs, s, hrefill, hbs, hsteady'⟩ :=
    refill_items (Kind.isHidden_of_mem (k := .withStmt) (by decide)) hitems rest w₁
  have hws : World.Steady w s := IsTrans.trans _ _ _ hsteady hsteady'
  have hinner : (node .withStmt bs).Sound :=
    (hv.set hitems htakes.sublist.subset (by decide) (by decide)).of_unlabelled hbs
  obtain ⟨target, htarget, hitemTarget⟩ := optionalVars_attr (hsound item hmem).1
  let xs := if rest.isEmpty then body else [.node .withStmt bs]
  have hxs : ∀ u ∈ xs, u.isNode ∧ u.Sound := by
    intro u hu
    dsimp only [xs] at hu
    split at hu
    · exact ⟨isNode_of_isOf (hbodySound u hu).1, (hbodySound u hu).2⟩
    · obtain rfl := List.mem_singleton.mp hu
      exact ⟨rfl, hinner⟩
  have htree : (if rest.isEmpty then (node .withStmt as).attr "body"
      else .ok (.list [.node .withStmt bs])) = .ok (.list xs) := by
    dsimp only [xs]
    split
    · exact attr_of_get? hbody
    · rfl
  have hrun := (visitAt_block depth (isIdle_of_known? hknown)).trans
    (visitWith_run (attr_of_get? hitems) hdetect hpop (contextExpr_attr hhead)
      (candidate_of_candidate? hcandidate) rfl hrefill htarget htree)
  have hnodes : ∀ u ∈ xs, u.isNode := fun u hu => (hxs u hu).1
  have href := givesSoundLine_shallowCopy (hv.givesSoundLine (c := .stmt) rfl (by decide)) "items"
  obtain ⟨fixed, t, hleaves, ⟨hshape, hlines⟩, hcalls⟩ := leaves_of_echoes
    (P := fun fixed => fixed.shape = (suite xs).shape ∧ fixed.every hasSoundLine)
    hws hknown hm hrec rfl (fun location => checkOutput_list location hnodes)
    (fun o => by
      obtain ⟨fixed, t, hfill, hshape, hlines, ht⟩ := fillIn_suite hnodes
        (fun u hu => (hxs u hu).2.fields) (fun u hu => (hxs u hu).2.lines) href o
      exact ⟨fixed, t, hfill, ⟨hshape, hlines⟩, ht⟩)
    (hinner.hasAttr (c := .stmt) rfl (by decide)) hrun
  cases hrest : rest.isEmpty with
  | true =>
    have hxsBody : xs = body := if_pos hrest
    have hremainder : remainder .withStmt as "items" .block rest = .suite body := by
      rw [remainder, if_pos ⟨rfl, List.isEmpty_iff.mp hrest⟩, itemsAt, hbody]
    rw [hxsBody] at hshape hxs
    refine ⟨fixed, t, _, hleaves, hcalls, ⟨name, args, m, _, hreading, hknown, rfl, rfl, rfl, by rw [hitemTarget]⟩,
      ⟨every_of_shape hshape ?_, hlines⟩, by rw [hremainder, hshape]⟩
    exact every_suite fun u hu => (hxs u hu).2.fields
  | false =>
    have hxsInner : xs = [.node .withStmt bs] := if_neg (by simp [hrest])
    have hremainder : remainder .withStmt as "items" .block rest =
        .node .withStmt (set as "items" (.list rest)) :=
      if_neg fun h => by simp [h.2] at hrest
    have hsuite : suite [node .withStmt bs] = .list [.node .withStmt bs] := rfl
    rw [hxsInner, hsuite] at hshape
    obtain ⟨ys, rfl, hys⟩ := exists_of_shape_list hshape
    obtain ⟨u, rfl⟩ : ∃ u, ys = [u] := List.length_eq_one_iff.mp (by simpa using congrArg List.length hys)
    have hu : u.shape = (node .withStmt bs).shape := by simpa using hys
    have hnode : u.isNode := by rw [← isNode_shape, hu]; rfl
    refine ⟨u, t, _, (leaves_singleton hnode depth t).trans hleaves, hcalls,
      ⟨name, args, m, _, hreading, hknown, rfl, rfl, rfl, by rw [hitemTarget]⟩,
      ⟨every_of_shape hu hinner.fields, every_list.mp hlines u (by simp)⟩, ?_⟩
    rw [hremainder, hu, ← shape_unlabelled, hbs, shape_unlabelled]

theorem round_decorated (hk : k = .functionDef ∨ k = .classDef) (hv : (node k as).Sound)
    (hmacros : x.KnowsEchoes w) (hitems : get? as "decorator_list" = some (.list items))
    (hread : ∀ i ∈ items, (itemReading? .decorator i).isSome) (hrec : w.recursive)
    (hpop : popLast (items.map fun i => (i, x.uses w .decorator i)) = some (item, rest)) :
    x.Round w .decorator depth (.node k as) item
      (remainder k as "decorator_list" .decorator rest) := by
  obtain ⟨items', hitems', hsound⟩ :=
    hv.many "decorator_list" .expr (by
      rcases hk with rfl | rfl <;> decide)
  cases hitems.symm.trans hitems'
  have hstmt : (node k as).isOf .stmt := by rcases hk with rfl | rfl <;> rfl
  have htakes := takes_of_popLast hpop
  obtain ⟨hmem, huses⟩ := htakes.mem
  obtain ⟨head, name, args, b, hhead, hreading, hcandidate, hknown⟩ := exists_of_uses huses
  obtain ⟨m, rfl, hm⟩ := hmacros name b hknown
  cases hhead
  obtain ⟨w₁, hdetect, hsteady⟩ := detect_run (.inr rfl) hmacros.knowsMacros hread
    fun i hi => (hsound i hi).2.givesSoundLine (hsound i hi).1 (by decide)
  obtain ⟨bs, s, hrefill, hbs, hsteady'⟩ :=
    refill_items (Kind.isHidden_of_mem (k := .functionDef) (by decide)) hitems rest w₁
  have hws : World.Steady w s := IsTrans.trans _ _ _ hsteady hsteady'
  have hinner : (node k bs).Sound :=
    (hv.set hitems htakes.sublist.subset (by decide) (by decide)).of_unlabelled hbs
  have hrun := (visitAt_decorated depth hk (isIdle_of_known? hknown)).trans
    (visitDecorated_run (attr_of_get? hitems) hdetect hpop
      (candidate_of_candidate? hcandidate) rfl hrefill)
  have href := givesSoundLine_shallowCopy (hv.givesSoundLine hstmt (by decide)) "decorator_list"
  obtain ⟨fixed, t, hleaves, ⟨hshape, hlines⟩, hcalls⟩ := leaves_of_echoes
    (P := fun fixed => fixed.shape = (node k bs).shape ∧
      fixed.every hasSoundLine = true)
    hws hknown hm hrec rfl (fun _ => rfl)
    (fun o => by
      obtain ⟨fixed, t, hfill, hshape, hlines, ht⟩ := fillIn_of_obeys rfl hinner.fields
        hinner.lines href o
      exact ⟨fixed, t, hfill, ⟨hshape, hlines⟩, ht⟩)
    ((hsound item hmem).2.hasAttr (hsound item hmem).1 (by decide)) hrun
  refine ⟨fixed, t, _, hleaves, hcalls, ⟨name, args, m, _, hreading, hknown, rfl, rfl, rfl, rfl⟩,
    ⟨every_of_shape hshape hinner.fields, hlines⟩, ?_⟩
  rw [hshape, ← shape_unlabelled, hbs, shape_unlabelled, remainder,
    if_neg fun h => by cases h.1]

theorem round_of_uses (hk : itemsField? k = some (field, form)) (hv : (node k as).Sound)
    (hmacros : x.KnowsEchoes w) (hitems : get? as field = some (.list items))
    (hread : ∀ i ∈ items, (itemReading? form i).isSome) (hrec : w.recursive)
    (huses : items.any (x.uses w form)) (depth : Nat) :
    ∃ item rest, Takes form (x.uses w form) items item rest ∧
      x.Round w form depth (.node k as) item (remainder k as field form rest) := by
  have hany : (items.map fun i => (i, x.uses w form i)).any (·.2) := by
    rw [List.any_map]
    exact huses
  have hcases : (k = .withStmt ∧ field = "items" ∧ form = .block) ∨
      ((k = .functionDef ∨ k = .classDef) ∧ field = "decorator_list" ∧ form = .decorator) := by
    unfold itemsField? at hk
    split at hk <;> cases hk <;> simp
  rcases hcases with ⟨rfl, rfl, rfl⟩ | ⟨hdefinition, rfl, rfl⟩
  · match hpop : popFirst (items.map fun i => (i, x.uses w .block i)) with
    | none =>
      rw [any_of_popFirst hpop] at hany
      cases hany
    | some (item, rest) =>
      exact ⟨item, rest, takes_of_popFirst hpop, round_block hv hmacros hitems hread hrec hpop⟩
  · match hpop : popLast (items.map fun i => (i, x.uses w .decorator i)) with
    | none =>
      rw [any_of_popLast hpop] at hany
      cases hany
    | some (item, rest) =>
      exact ⟨item, rest, takes_of_popLast hpop,
        round_decorated hdefinition hv hmacros hitems hread hrec hpop⟩

theorem visitAt_of_unused (hk : itemsField? k = some (field, form))
    (hitems : get? as field = some (.list items)) (hmacros : x.KnowsMacros w)
    (hread : ∀ i ∈ items, (itemReading? form i).isSome)
    (hlines : ∀ i ∈ items, i.givesSoundLine) (huses : items.any (x.uses w form) = false)
    (hawake : x.isIdle w = false) (depth : Nat) :
    ∃ t, World.Steady w t ∧ visitAt (depth + 1) x (.node k as) w =
      visitChildren k as (x.partsOf depth as) t := by
  have hform : form = .block ∨ form = .decorator := by
    unfold itemsField? at hk
    split at hk <;> cases hk <;> simp
  obtain ⟨t, hdetect, hsteady⟩ := detect_run hform hmacros hread hlines
  have hinvokes : x.invokes (.node k as) w = (.ok false, t) := by
    rw [invokes_items hk, Act.lift_bind_ok (attr_of_get? hitems), Act.bind_ok hdetect,
      List.any_map]
    exact congrArg (fun b => (Except.ok b, t)) huses
  have hkind : k ≠ .done ∧ k ≠ .name ∧ k ≠ .constant := by
    unfold itemsField? at hk
    split at hk <;> cases hk <;> simp
  refine ⟨t, hsteady, ?_⟩
  rw [visitAt_node]
  exact visitNode_of_passesBy ⟨hawake, hkind.1, hkind.2.1, fun h => absurd h hkind.2.2, hinvokes⟩

/-! ## All rounds -/

theorem Notes.of_shape {item item' : Value} {entry : LogEntry} (h : x.Notes t form item' entry)
    (hshape : item'.shape = item.shape) (hknown : x.known? t = x.known? w) :
    x.Notes w form item entry := by
  obtain ⟨name, args', m, call, hreading, hname, hentry, hform, hargs, htarget⟩ := h
  have hread := itemReading?_shape form item'
  rw [hshape, itemReading?_shape, hreading] at hread
  obtain ⟨c, hc, hread⟩ := Option.map_eq_some_iff.mp hread
  obtain ⟨⟨n, args⟩, rfl, hread⟩ := Option.map_eq_some_iff.mp hread
  obtain ⟨rfl, hmap⟩ := Prod.mk.inj (Option.some.inj hread)
  have htargets : (targetOf? form item').map shape = (targetOf? form item).map shape := by
    rw [← targetOf?_shape, hshape, targetOf?_shape]
  refine ⟨n, args, m, call, hc, hknown ▸ hname, hentry, hform, ?_, htarget.trans htargets⟩
  rw [hargs, shape_list, shape_list]
  exact congrArg _ hmap.symm

/-- What is left of a node when the items that invoke macros are taken out. -/
def residue (x : Expander) (w : World) (k : Kind) (as : Attrs) (field : String) (form : Form) :
    Value :=
  let items := itemsAt as field
  if form = .block ∧ items ≠ [] ∧ items.all (x.uses w form) then .suite (itemsAt as "body")
  else .node k (Attrs.set as field (.list (items.filter (!x.uses w form ·))))

private theorem map_shape_filter {p : Value → Bool} (hp : ∀ u, p u.shape = p u)
    (h : xs.map shape = ys.map shape) : (xs.filter p).map shape = (ys.filter p).map shape := by
  have hfilter (zs : List Value) :
      (zs.filter p).map shape = (zs.map shape).filter p := by
    rw [List.filter_map]
    exact congrArg _ (congrArg (List.filter · zs) (funext fun u => (hp u).symm))
  rw [hfilter, hfilter, h]

private theorem all_of_filter {p : Value → Bool} : xs.all p = (xs.filter (!p ·)).isEmpty := by
  induction xs with
  | nil => rfl
  | cons u xs ih => cases hu : p u <;> simp [hu, ih]

private theorem shape_set {u u' : Value} (h : (node k bs).shape = (node k as).shape)
    (hu : u.shape = u'.shape) :
    (node k (set bs field u)).shape = (node k (set as field u')).shape := by
  rw [shape_node_eq_iff] at h ⊢
  intro f hf
  have hfield := h f hf
  unfold outlineAt field? at hfield ⊢
  rw [get?_set, get?_set]
  by_cases hname : f.name = field
  · simp only [hname, ↓reduceIte, Option.map_some, Option.some.injEq]
    exact hu
  · simpa only [hname, ↓reduceIte] using hfield

theorem length_ordered {α : Type} (form : Form) (xs : List α) :
    (ordered form xs).length = xs.length := by
  cases form <;> simp [ordered]

private theorem isSome_itemReading? (h : xs.map shape = ys.map shape)
    (hys : ∀ i ∈ ys, (itemReading? form i).isSome) :
    ∀ i ∈ xs, (itemReading? form i).isSome := by
  intro i hi
  have hmem := List.mem_map_of_mem (f := shape) hi
  rw [h] at hmem
  obtain ⟨j, hj, hshape⟩ := List.mem_map.mp hmem
  have hread := itemReading?_shape form i
  rw [← hshape, itemReading?_shape] at hread
  have hsome := congrArg Option.isSome hread
  rw [Option.isSome_map, Option.isSome_map] at hsome
  rw [← hsome]
  exact hys j hj

private theorem residue_eq (hitems : get? as field = some (.list items)) :
    x.residue w k as field form =
      if form = .block ∧ items ≠ [] ∧ items.filter (!x.uses w form ·) = [] then
        .suite (itemsAt as "body")
      else .node k (set as field (.list (items.filter (!x.uses w form ·)))) := by
  have hat : itemsAt as field = items := by rw [itemsAt, hitems]
  simp only [residue, hat, all_of_filter, List.isEmpty_iff]

theorem field_of_itemsField? (hk : itemsField? k = some (field, form)) :
    Field.req field ∈ k.fields ∧ field ≠ "body" ∧ field ≠ "lineno" ∧ field ≠ "col_offset" ∧
      (form = .block ∨ form = .decorator) := by
  unfold itemsField? at hk
  split at hk <;> cases hk <;> decide

private theorem items_of_shape (hfield : Field.req field ∈ k.fields)
    (hitems : get? as field = some (.list items)) (hshape : (node k bs).shape = (node k as).shape) :
    ∃ items', get? bs field = some (.list items') ∧
      items'.map shape = items.map shape := by
  have hget := get?_of_shape hshape hfield
  rw [hitems, Option.map_some] at hget
  obtain ⟨u, hu, hushape⟩ := Option.map_eq_some_iff.mp hget
  obtain ⟨items', rfl, hshapes⟩ := exists_of_shape_list hushape
  exact ⟨items', hu, hshapes⟩

private theorem shape_body (hk : itemsField? k = some (field, .block)) (hv : (node k as).Sound)
    (hbs : (node k bs).Sound) (hshape : (node k bs).shape = (node k as).shape) :
    (suite (itemsAt bs "body")).shape =
      (suite (itemsAt as "body")).shape := by
  unfold itemsField? at hk
  split at hk <;> cases hk
  obtain ⟨body, hbody, hnodes⟩ := hv.many "body" .stmt (by decide)
  obtain ⟨body', hbody', hnodes'⟩ := hbs.many "body" .stmt (by decide)
  obtain ⟨body'', hbody'', hmap⟩ := items_of_shape (by decide) hbody hshape
  cases hbody'.symm.trans hbody''
  have hat : itemsAt as "body" = body := by rw [itemsAt, hbody]
  have hat' : itemsAt bs "body" = body' := by rw [itemsAt, hbody']
  rw [hat, hat']
  exact shape_suite (fun u hu => isNode_of_isOf (hnodes u hu).1)
    (fun u hu => isNode_of_isOf (hnodes' u hu).1) hmap

private theorem residue_of_shape (hk : itemsField? k = some (field, form)) (hv : (node k as).Sound)
    (hbs : (node k bs).Sound) (hitems : get? as field = some (.list items))
    (hshape : (node k bs).shape = (node k as).shape) (hknown : x.known? t = x.known? w) :
    (x.residue t k bs field form).shape = (x.residue w k as field form).shape := by
  obtain ⟨items', hitems', hshapes⟩ := items_of_shape (field_of_itemsField? hk).1 hitems hshape
  have hothers : (items'.filter (!x.uses w form ·)).map shape =
      (items.filter (!x.uses w form ·)).map shape :=
    map_shape_filter (fun u => by rw [uses_shape]) hshapes
  have hnil (ys zs : List Value) (h : ys.map shape = zs.map shape) :
      ys = [] ↔ zs = [] := by
    rw [← List.map_eq_nil_iff (f := shape), h, List.map_eq_nil_iff]
  rw [residue_eq hitems, residue_eq hitems', uses_congr hknown]
  simp only [ne_eq, hnil _ _ hothers, hnil _ _ hshapes]
  split
  next hgone =>
    obtain ⟨rfl, -⟩ := hgone
    exact shape_body hk hv hbs hshape
  next =>
    refine shape_set hshape ?_
    rw [shape_list, shape_list, hothers]

/-- What is left in the end does not depend on what is taken out first. -/
private theorem residue_of_takes (hk : itemsField? k = some (field, form))
    (hitems : get? as field = some (.list items))
    (htakes : Takes form (x.uses w form) items item rest) (hrest : ¬ (form = .block ∧ rest = [])) :
    (x.residue w k (set as field (.list rest)) field form).shape =
      (x.residue w k as field form).shape := by
  have hset : get? (set as field (.list rest)) field = some (.list rest) := by
    rw [get?_set, if_pos rfl]
  have hbody : itemsAt (set as field (.list rest)) "body" =
      itemsAt as "body" := by
    rw [itemsAt, get?_set, if_neg (field_of_itemsField? hk).2.1.symm, itemsAt]
  have hitem : items ≠ [] := List.ne_nil_of_mem htakes.mem.1
  rw [residue_eq hitems, residue_eq hset, htakes.others, hbody]
  by_cases hgone : form = .block ∧ items.filter (!x.uses w form ·) = []
  · rw [if_pos ⟨hgone.1, fun h => hrest ⟨hgone.1, h⟩, hgone.2⟩,
      if_pos ⟨hgone.1, hitem, hgone.2⟩]
  · rw [if_neg fun h => hgone ⟨h.1, h.2.2⟩, if_neg fun h => hgone ⟨h.1, h.2.2⟩]
    refine outline_congr fun f _ _ => ?_
    simp only [get?_set]
    split <;> rfl

private theorem forall₂_of_shape {R S : Value → LogEntry → Prop} {entries : List LogEntry}
    (h : List.Forall₂ R xs entries) (hmap : xs.map shape = ys.map shape)
    (himp : ∀ u v entry, R u entry → u.shape = v.shape → S v entry) :
    List.Forall₂ S ys entries := by
  induction h generalizing ys with
  | nil =>
    rw [List.map_nil, eq_comm, List.map_eq_nil_iff] at hmap
    subst hmap
    exact .nil
  | cons hu _ ih =>
    cases ys with
    | nil => cases hmap
    | cons v ys =>
      obtain ⟨hv, hys⟩ := List.cons.inj hmap
      exact .cons (himp _ v _ hu hv) (ih hys)

private theorem ordered_map {α β : Type} (form : Form) (f : α → β) (xs : List α) :
    ordered form (xs.map f) = (ordered form xs).map f := by
  cases form <;> simp [ordered]

/-- The items that invoke macros are called in order, and what is left of the node is visited. -/
theorem visitAt_rounds (hk : itemsField? k = some (field, form)) (hv : (node k as).Sound)
    (hmacros : x.KnowsEchoes w) (hitems : get? as field = some (.list items))
    (hread : ∀ i ∈ items, (itemReading? form i).isSome) (hrec : w.recursive)
    (depth : Nat) :
    ∃ left s entries, Leaves (visitAt depth x left s)
        (visitAt (depth + (items.filter (x.uses w form)).length) x (.node k as) w) ∧
      World.Calls w entries s ∧
      List.Forall₂ (x.Notes w form) (ordered form (items.filter (x.uses w form))) entries ∧
      left.Sound ∧ left.shape = (x.residue w k as field form).shape ∧
      ∀ bs, left = .node k bs → ∃ others, get? bs field = some (.list others) ∧
        ∀ i ∈ others, (itemReading? form i).isSome ∧ x.uses w form i = false := by
  induction hn : (items.filter (x.uses w form)).length generalizing as items w with
  | zero =>
    have hnone : items.filter (x.uses w form) = [] := List.length_eq_zero_iff.mp hn
    have hunused : ∀ i ∈ items, x.uses w form i = false := by simpa using hnone
    have hall : items.filter (!x.uses w form ·) = items :=
      List.filter_eq_self.mpr fun i hi => by simp [hunused i hi]
    refine ⟨.node k as, w, [], leaves_refl _, ⟨by simp, rfl, rfl⟩, ?_, hv, ?_, ?_⟩
    · rw [hnone]
      cases form <;> exact .nil
    · rw [residue_eq hitems, hall, if_neg fun h => h.2.1 h.2.2, Attrs.set_eq_self hitems]
    · rintro bs ⟨⟩
      exact ⟨items, hitems, fun i hi => ⟨hread i hi, hunused i hi⟩⟩
  | succ n ih =>
    have huses : items.any (x.uses w form) := by
      obtain ⟨i, hi⟩ := List.exists_mem_of_length_pos (l := items.filter (x.uses w form)) (by omega)
      exact List.any_eq_true.mpr ⟨i, List.mem_of_mem_filter hi, List.of_mem_filter hi⟩
    obtain ⟨item, rest, htakes, left, t, entry, hleaves, hcalls, hnotes, hsound, hshape⟩ :=
      round_of_uses hk hv hmacros hitems hread hrec huses (depth + n)
    have hlength : (rest.filter (x.uses w form)).length = n := by
      have hfirst := congrArg List.length htakes.first
      rw [List.length_cons, length_ordered, length_ordered, hn] at hfirst
      omega
    have hknown := known?_of_globals (x := x) hcalls.globals
    unfold remainder at hshape
    split at hshape
    next hrest =>
      obtain ⟨rfl, rfl⟩ := hrest
      obtain rfl : n = 0 := hlength.symm
      have hgone : items.filter (!x.uses w .block ·) = [] := htakes.others.symm
      refine ⟨left, t, [entry], hleaves, hcalls, ?_, hsound, ?_, ?_⟩
      · rw [htakes.first]
        exact .cons hnotes .nil
      · rw [hshape, residue_eq hitems,
          if_pos ⟨rfl, List.ne_nil_of_mem htakes.mem.1, hgone⟩]
      · rintro bs rfl
        have hnode : (suite (itemsAt as "body")).isNode := by
          rw [← isNode_shape, ← hshape, isNode_shape]
          rfl
        unfold suite at hnode
        split at hnode <;> cases hnode
    next hrest =>
      obtain ⟨bs, rfl⟩ := exists_of_shape_node hshape
      have hset : get? (set as field (.list rest)) field = some (.list rest) := by
        rw [get?_set, if_pos rfl]
      obtain ⟨items', hu, hshapes⟩ := items_of_shape (field_of_itemsField? hk).1 hset hshape
      have hfilter : (items'.filter (x.uses t form)).map shape =
          (rest.filter (x.uses w form)).map shape := by
        rw [uses_congr hknown]
        exact map_shape_filter (uses_shape x w form) hshapes
      have hlength' : (items'.filter (x.uses t form)).length = n := by
        rw [← hlength]
        simpa using congrArg List.length hfilter
      obtain ⟨last, s, entries, hleaves', hcalls', hall, hsound', hshape', hunused⟩ :=
        ih hsound (hmacros.congr hknown) hu
          (isSome_itemReading? hshapes fun i hi => hread i (htakes.sublist.subset hi))
          (hcalls.recursive.trans hrec) hlength'
      refine ⟨last, s, entry :: entries, hleaves'.trans hleaves, hcalls.trans hcalls', ?_, hsound',
        ?_, ?_⟩
      · rw [htakes.first]
        refine .cons hnotes (forall₂_of_shape hall ?_ fun u v e hu huv => hu.of_shape huv hknown)
        rw [← ordered_map, hfilter, ordered_map]
      · rw [hshape', residue_of_shape hk (hv.set hitems htakes.sublist.subset
          (field_of_itemsField? hk).2.2.1 (field_of_itemsField? hk).2.2.2.1) hsound hset hshape hknown]
        exact residue_of_takes hk hitems htakes hrest
      · rwa [uses_congr hknown] at hunused

/-! ## Trees as the grammar has them -/

theorem slices_shape (form : Form) (u : Value) : slices form u.shape = slices form u := by
  rw [slices, slices, headOf?_shape]
  cases headOf? form u with
  | none => rfl
  | some head => exact slicesName_shape head

theorem uses_of_isIdle (h : x.isIdle w) (i : Value) : x.uses w form i = false := by
  unfold uses
  split
  · rw [knowsNothing_of_isIdle h]
    rfl
  · rfl

private theorem any_of_shape {p : Value → Bool} (hp : ∀ u, p u.shape = p u)
    (h : xs.map shape = ys.map shape) : xs.any p = ys.any p := by
  have hany (zs : List Value) : zs.any p = (zs.map shape).any p := by
    rw [List.any_map]
    exact congrArg (List.any zs) (funext fun u => (hp u).symm)
  rw [hany xs, h, ← hany]

theorem legible_items (hk : itemsField? k = some (field, form))
    (hv : (node k as).every Kind.conforms) :
    ∃ items, get? as field = some (.list items) ∧ ∀ i ∈ items, Legible form i := by
  have hobeys := Kind.obeys_of_conforms (every_node.mp hv).1
  have hexpr {u : Value} (hu : u.every Kind.conforms) : if u.slicesName then
      ∃ e, e.kind = .attributeError ∧ u.candidate? = .error e
      else ∃ c, u.reading? = some c := reading?_of_conforms hu
  unfold itemsField? at hk
  split at hk <;> cases hk
  · obtain ⟨items, hitems, hall⟩ := many_of_obeys hv hobeys "items" .withItem (by decide)
    refine ⟨items, hitems, fun i hi => ?_⟩
    obtain ⟨hof, hi⟩ := hall i hi
    obtain ⟨j, cs, rfl, hj⟩ := exists_of_isOf hof
    obtain rfl : j = .withItem := by
      revert hj
      cases j <;> decide
    obtain ⟨head, hhead, -, hheadc⟩ := one_of_obeys hi
      (Kind.obeys_of_conforms (every_node.mp hi).1)
      "context_expr" .expr (by decide)
    exact ⟨head, hhead, hexpr hheadc⟩
  all_goals
    obtain ⟨items, hitems, hall⟩ := many_of_obeys hv hobeys "decorator_list" .expr (by decide)
    exact ⟨items, hitems, fun i hi => ⟨i, rfl, hexpr (hall i hi).2⟩⟩

private theorem visitAt_of_detect_error {e : Error} {s : World}
    (hk : itemsField? k = some (field, form)) (hitems : get? as field = some (.list items))
    (hawake : x.isIdle w = false) (hdetect : x.detect form (.list items) w = (.error e, s))
    (depth : Nat) : visitAt (depth + 1) x (.node k as) w = (.error e, s) := by
  unfold itemsField? at hk
  split at hk <;> cases hk
  · rw [visitAt_block depth hawake, visitWith, Act.lift_bind_ok (attr_of_get? hitems)]
    exact Act.bind_error hdetect
  all_goals
    rw [visitAt_decorated depth (by simp) hawake, visitDecorated,
      Act.lift_bind_ok (attr_of_get? hitems)]
    exact Act.bind_error hdetect

private theorem givesSoundLine_items (hk : itemsField? k = some (field, form))
    (hv : (node k as).Sound) (hitems : get? as field = some (.list items)) :
    ∀ i ∈ items, i.givesSoundLine := by
  unfold itemsField? at hk
  split at hk <;> cases hk
  · obtain ⟨items', hitems', hall⟩ := hv.many "items" .withItem (by decide)
    cases hitems.symm.trans hitems'
    exact fun i hi => (hall i hi).2.givesSoundLine (hall i hi).1 (by decide)
  all_goals
    obtain ⟨items', hitems', hall⟩ := hv.many "decorator_list" .expr (by decide)
    cases hitems.symm.trans hitems'
    exact fun i hi => (hall i hi).2.givesSoundLine (hall i hi).1 (by decide)

/-- The outcome of a visit to a node whose items may invoke macros that give back what they are
called with. If an item is a name that is sliced, detection fails before anything is called. -/
structure Stacked (x : Expander) (w : World) (k : Kind) (as : Attrs) (field : String) (form : Form)
    (depth : Nat) (out : Except Error Value × World) (left : Value) (s : World)
    (entries : List LogEntry) : Prop where
  /-- The visit comes to what a visit to the rest does, which begins when the macros have been
  called. -/
  leaves : Leaves (visitAt (depth + 1) x left s) out
  log : s.log = w.log ++ entries
  recursive : s.recursive = true
  /-- One call for each item that invokes a macro, in order. -/
  calls : List.Forall₂ (x.Notes w form)
    (ordered form ((itemsAt as field).filter (x.uses w form))) entries
  rest : left.shape = (x.residue w k as field form).shape
  /-- The rest is no invocation as a whole. -/
  passes : ∀ bs, left = .node k bs → ∃ t, t.log = s.log ∧ visitAt (depth + 1) x left s =
    if x.isIdle w then (.ok left, t) else visitChildren k bs (x.partsOf depth bs) t

private theorem stacked_visitAt (hk : itemsField? k = some (field, form))
    (hv : (node k as).every Kind.conforms) (hsound : (node k as).Sound)
    (hmacros : x.KnowsEchoes w) (hrec : w.recursive) (depth : Nat) :
    let out := visitAt (depth + 1 + ((itemsAt as field).filter (x.uses w form)).length) x
      (.node k as) w
    if x.isIdle w = false ∧ (itemsAt as field).any (slices form) = true then
      ∃ e, out.1 = .error e ∧ e.kind = .attributeError ∧ out.2.log = w.log
    else ∃ left s entries, x.Stacked w k as field form depth out left s entries := by
  obtain ⟨items, hitems, hlegible⟩ := legible_items hk hv
  obtain ⟨-, -, -, -, hform⟩ := field_of_itemsField? hk
  have hlines := givesSoundLine_items hk hsound hitems
  have hat : itemsAt as field = items := by rw [itemsAt, hitems]
  dsimp only
  rw [hat]
  split
  next hfails =>
    obtain ⟨e, t, he, hdetect, hsteady⟩ :=
      detect_of_slices hform hmacros.knowsMacros hlegible hlines hfails.2
    have hrun := visitAt_of_detect_error hk hitems hfails.1 hdetect
      (depth + (items.filter (x.uses w form)).length)
    rw [show depth + 1 + (items.filter (x.uses w form)).length =
      depth + (items.filter (x.uses w form)).length + 1 by omega, hrun]
    exact ⟨e, rfl, he, hsteady.log⟩
  next hreads =>
    cases hidle : x.isIdle w with
    | true =>
      have hunused : items.filter (x.uses w form) = [] := by
        rw [List.filter_eq_nil_iff]
        intro i _
        rw [uses_of_isIdle hidle]
        simp
      rw [hunused]
      have hrun : visitAt (depth + 1) x (.node k as) w = (.ok (.node k as), w) :=
        walk_of_isIdle _ _ _ hidle
      refine ⟨.node k as, w, [], leaves_refl _, by simp, hrec, ?_, ?_, ?_⟩
      · rw [hat, hunused]
        cases form <;> exact .nil
      · have hall : items.filter (!x.uses w form ·) = items := by
          rw [List.filter_eq_self]
          intro i _
          simp [uses_of_isIdle hidle]
        rw [residue_eq hitems, hall, if_neg fun h => h.2.1 h.2.2, Attrs.set_eq_self hitems]
      · exact fun bs _ => ⟨w, rfl, by rw [hrun, if_pos hidle]⟩
    | false =>
      have hread : ∀ i ∈ items, (itemReading? form i).isSome := by
        intro i hi
        refine (hlegible i hi).isSome (Bool.eq_false_iff.mpr fun hs => hreads ⟨hidle, ?_⟩)
        exact List.any_eq_true.mpr ⟨i, hi, hs⟩
      obtain ⟨left, s, entries, hleaves, hcalls, hall, hleft, hshape, hunused⟩ :=
        visitAt_rounds hk hsound hmacros hitems hread hrec (depth + 1)
      refine ⟨left, s, entries, hleaves, hcalls.log, hcalls.recursive.trans hrec, ?_, hshape, ?_⟩
      · rwa [hat]
      · rintro bs rfl
        obtain ⟨others, hothers, hall⟩ := hunused bs rfl
        have hknown := known?_of_globals (x := x) hcalls.globals
        have hawake : x.isIdle s = false := by rw [isIdle, hcalls.globals, ← isIdle, hidle]
        obtain ⟨t, ht, hrun⟩ := visitAt_of_unused hk hothers
          (hmacros.knowsMacros.congr hknown) (fun i hi => (hall i hi).1)
          (givesSoundLine_items hk hleft hothers)
          (by simpa [uses_congr hknown] using fun i hi => (hall i hi).2) hawake depth
        exact ⟨t, ht.log, by rw [hrun, hidle]; rfl⟩

/-- A block or a definition is expanded until no macros are left, where macros give back what they
are called with. Each item that invokes a macro is called once, in the order of the form; then what
is left of the node is visited: the other items and the body, or the body alone if no item of a
block is left. This fails only if an item is a name that is sliced, before anything is called. -/
theorem visitTo_stacked {field : String} {form : Form} (hk : itemsField? k = some (field, form))
    (hv : (Value.node k as).wellFormed = true)
    (hlines : (Value.node k as).every Value.hasSoundLine = true) (hmacros : x.KnowsEchoes w)
    (depth : Nat) :
    let macros := (Value.itemsAt as field).filter (x.uses w form)
    let out := visitTo (visitAt (depth + 1 + macros.length)) x .recursive none (.node k as) w
    if x.isIdle w = false ∧ (Value.itemsAt as field).any (slices form) = true then
      ∃ e, out.1 = .error e ∧ e.kind = .attributeError ∧ out.2.log = w.log
    else ∃ left s entries, x.Stacked w k as field form depth out left s entries := by
  have hconforms : (Value.node k as).every Kind.conforms = true := (Bool.and_eq_true_iff.mp hv).2
  have hfields : (Value.node k as).every Kind.obeys = true :=
    Value.throughout_mono (fun _ _ => Kind.obeys_of_conforms) hconforms
  -- The tree is labelled first; that changes neither its shape nor the names that are known.
  have hshape : ((Value.node k as).labelled w.journal.next).1.shape = (Value.node k as).shape :=
    Value.outline_labelled _ _
  have hconforms' : ((Value.node k as).labelled w.journal.next).1.every Kind.conforms = true :=
    (Value.throughout_labelled Kind.conforms_unlabelledAttrs _ _).trans hconforms
  have hlines' := (Value.every_labelled Value.robust_hasSoundLine (.node k as)
    w.journal.next).trans hlines
  dsimp only
  rw [visitTo_recursive_run]
  obtain ⟨bs, hbs⟩ := Value.exists_of_shape_node hshape
  rw [hbs] at hshape hconforms' hlines' ⊢
  obtain ⟨items, hitems, -⟩ := legible_items hk hconforms
  obtain ⟨items', hitems', hshapes⟩ := items_of_shape (field_of_itemsField? hk).1 hitems hshape
  have hat : Value.itemsAt as field = items := by rw [Value.itemsAt, hitems]
  have hat' : Value.itemsAt bs field = items' := by rw [Value.itemsAt, hitems']
  have hsound : (Value.node k as).Sound := ⟨hfields, hlines⟩
  have hsound' : (Value.node k bs).Sound := ⟨Value.every_of_shape hshape hfields, hlines'⟩
  generalize hw : ({ w with recursive := true } : World).labelling (.node k as) = w'
  have hglobals : w'.globals = w.globals := by rw [← hw]; rfl
  have hlog : w'.log = w.log := by rw [← hw]; rfl
  have hknown := known?_of_globals (x := x) hglobals
  have hidle : x.isIdle w' = x.isIdle w := by rw [isIdle, hglobals, ← isIdle]
  have hmap := map_shape_filter (uses_shape x w form) hshapes
  have hlength : (items'.filter (x.uses w form)).length = (items.filter (x.uses w form)).length := by
    simpa using congrArg List.length hmap
  have h := stacked_visitAt hk hconforms' hsound' (hmacros.congr hknown) (by rw [← hw]; rfl) depth
  dsimp only at h
  rw [hat', uses_congr hknown, hlength, hidle, any_of_shape (slices_shape form) hshapes] at h
  rw [hat]
  split
  next hfails =>
    rw [if_pos hfails] at h
    rwa [hlog] at h
  next hreads =>
    rw [if_neg hreads] at h
    obtain ⟨left, s, entries, h⟩ := h
    refine ⟨left, s, entries, h.leaves, h.log.trans (by rw [hlog]), h.recursive, ?_, ?_, ?_⟩
    · have hcalls := h.calls
      rw [hat', uses_congr hknown] at hcalls
      rw [hat]
      refine forall₂_of_shape hcalls ?_ fun u v e hu huv => hu.of_shape huv hknown
      rw [← ordered_map, hmap, ordered_map]
    · exact h.rest.trans (residue_of_shape hk hsound hsound' hitems hshape hknown)
    · intro cs hcs
      obtain ⟨t, ht, hrun⟩ := h.passes cs hcs
      exact ⟨t, ht, by rw [hrun, hidle]⟩

end

theorem echoes_make {d : ScriptedMacro} (h : d.script = .identity) (n : Nat) :
    (d.make n).Echoes := by
  refine ⟨_, rfl, fun visit x call w => ⟨{ w with log := _ }, ?_, rfl, rfl, rfl⟩⟩
  rw [h]
  rfl

theorem knowsEchoes_of_forall
    (h : ∀ p ∈ x.bindings ++ w.globals, ∃ m, p.2 = .transformer m ∧ m.Echoes) :
    x.KnowsEchoes w := by
  intro name b hb
  unfold known? at hb
  split at hb
  · cases hb
  · have hfind := (Option.filter_eq_some_iff.mp hb).1
    unfold find? at hfind
    split at hfind
    next c hc =>
      cases hfind
      exact h _ (List.mem_append_left _ (Bindings.mem_of_get? hc))
    next => exact h _ (List.mem_append_right _ (Bindings.mem_of_get? hfind))

/-- A macro that gives back what it is called with. -/
def echoed (name : String) (isParametric : Bool) : Macro :=
  ScriptedMacro.make ⟨name, name, none, false, isParametric, .identity⟩ 0

/-- An expander with the macro `m`, and the macro `p` that takes arguments. -/
def withEchoed : Expander :=
  ⟨[("m", .transformer (echoed "m" false)), ("p", .transformer (echoed "p" true))], "example.py"⟩

def stackedBlock : Attrs :=
  [("items", .list [
    .node .withItem [("context_expr", .node .name [("id", .str "m"), ("ctx", .node .load [])])],
    .node .withItem [("context_expr", .node .name [("id", .str "a"), ("ctx", .node .load [])]),
      ("optional_vars", .node .name [("id", .str "b"), ("ctx", .node .store [])])],
    .node .withItem [("context_expr", .node .subscript
      [("value", .node .name [("id", .str "p"), ("ctx", .node .load [])]),
       ("slice", .node .index [("value", .node .name [("id", .str "m"), ("ctx", .node .load [])])]),
       ("ctx", .node .load [])])]]),
   ("body", .list [.node .exprStmt
    [("value", .node .name [("id", .str "m"), ("ctx", .node .load [])])]]),
   ("lineno", .int 1), ("col_offset", .int 0)]

theorem visitTo_stacked_block :
    itemsField? .withStmt = some ("items", .block) ∧
      (Value.node .withStmt stackedBlock).wellFormed = true ∧
      (Value.node .withStmt stackedBlock).every Value.hasSoundLine = true ∧
      withEchoed.KnowsEchoes (.start (.ofQueue [])) ∧
      ((Value.itemsAt stackedBlock "items").map
        (withEchoed.uses (.start (.ofQueue [])) .block)) = [true, false, true] ∧
      ∃ left s entries, withEchoed.Stacked (.start (.ofQueue [])) .withStmt stackedBlock "items"
        .block 0 (visitTo (visitAt 3) withEchoed .recursive none (.node .withStmt stackedBlock)
          (.start (.ofQueue []))) left s entries := by
  have hv : (Value.node .withStmt stackedBlock).wellFormed = true := by decide +kernel
  have hlines : (Value.node .withStmt stackedBlock).every Value.hasSoundLine = true := by
    decide +kernel
  have hmacros : withEchoed.KnowsEchoes (.start (.ofQueue [])) :=
    knowsEchoes_of_forall (by
      simp only [withEchoed, World.start, List.append_nil, List.mem_cons, List.not_mem_nil, or_false]
      rintro p (rfl | rfl) <;> exact ⟨_, rfl, echoes_make rfl 0⟩)
  have hreads : ¬ (withEchoed.isIdle (.start (.ofQueue [])) = false ∧
      (Value.itemsAt stackedBlock "items").any (slices .block) = true) := by decide +kernel
  have h := visitTo_stacked (x := withEchoed) (w := .start (.ofQueue [])) rfl hv hlines hmacros 0
  dsimp only at h
  rw [if_neg hreads] at h
  exact ⟨rfl, hv, hlines, hmacros, by decide +kernel, h⟩

def slicedBlock : Attrs :=
  [("items", .list [
    .node .withItem [("context_expr", .node .name [("id", .str "m"), ("ctx", .node .load [])])],
    .node .withItem [("context_expr", sliced)]]),
   ("body", .list [.node .passStmt []])]

/-- A name that is sliced among the items makes the visit fail before any macro is called. -/
theorem visitFor_slicedBlock :
    (Value.node .withStmt slicedBlock).wellFormed = true ∧
      (Value.itemsAt slicedBlock "items").map
        (withEchoed.uses (.start (.ofQueue [])) .block) = [true, false] ∧
      (match withEchoed.visitFor .recursive (.node .withStmt slicedBlock) (.start (.ofQueue [])) with
        | (.ok _, _) => none
        | (.error e, t) => some (e.kind, t.log.length)) = some (.attributeError, 0) := by
  decide +kernel

end Expander

end TreeMacros
