import TreeMacros.Proofs.Collecting
import TreeMacros.Proofs.Transparency

/-!
# Expressions that a visit passes over

A visit to a labelled expression in which nothing is invoked gives the expression back and leaves
the state as it is, if detection can read what it looks at, and fails if not. Names may be bound
there, as long as they do not invoke anything.
-/

namespace TreeMacros

open Value hiding none set
open Attrs (get? isHidden)
open Act (lift_bind_ok)
open Act (Reads)

variable {name : String} {y : Expander}

namespace Value

theorem attr?_unlabelled (h : isHidden name = false) (v : Value) :
    v.unlabelled.attr? name = (v.attr? name).map unlabelled := by
  have hvalue : isHidden "value" = false := Kind.isHidden_of_mem (k := .constant) (by decide)
  have hn : isHidden "n" = false := Kind.isHidden_of_mem (k := .num) (by decide)
  have hs : isHidden "s" = false := Kind.isHidden_of_mem (k := .str) (by decide)
  cases v with
  | node k as =>
    unfold attr?
    simp only [unlabelled, get?_unlabelledAttrs h]
    cases get? as name with
    | some w => rfl
    | none =>
      dsimp only [Option.map_none]
      split
      · simp [unlabelled]
      · split
        · exact get?_unlabelledAttrs hvalue as
        · exact get?_unlabelledAttrs hvalue as
        · exact get?_unlabelledAttrs hn as
        · exact get?_unlabelledAttrs hs as
        · exact get?_unlabelledAttrs hs as
        · rfl
  | _ => simp [unlabelled, attr?]

theorem typeName_unlabelled (v : Value) : v.unlabelled.typeName = v.typeName := by
  cases v <;> simp [unlabelled, typeName]

theorem isTruthy_unlabelled (v : Value) : v.unlabelled.isTruthy = v.isTruthy := by
  cases v <;> simp [unlabelled, unlabelledItems_eq, isTruthy]

theorem attr_unlabelled (h : isHidden name = false) (v : Value) :
    v.unlabelled.attr name = unlabelled <$> v.attr name := by
  rw [attr, attr, attr?_unlabelled h, typeName_unlabelled]
  cases v.attr? name <;> rfl

theorem candidate?_unlabelled (v : Value) :
    v.unlabelled.candidate? = Option.map (Prod.map unlabelled unlabelled) <$> v.candidate? := by
  have hid : isHidden "id" = false := Kind.isHidden_of_mem (k := .name) (by decide)
  have hvalue : isHidden "value" = false := Kind.isHidden_of_mem (k := .subscript) (by decide)
  have hslice : isHidden "slice" = false := Kind.isHidden_of_mem (k := .subscript) (by decide)
  have helts : isHidden "elts" = false := Kind.isHidden_of_mem (k := .tuple) (by decide)
  unfold candidate?
  rw [kind?_unlabelled]
  split
  · rw [attr_unlabelled hid]
    cases v.attr "id" <;> rfl
  · rw [attr_unlabelled hvalue, attr_unlabelled hslice]
    cases v.attr "value" with
    | error e => rfl
    | ok head =>
      change (if head.unlabelled.isKind .name then _ else _) = _ <$> (if head.isKind .name then _ else _)
      rw [isKind_unlabelled]
      split
      · cases v.attr "slice" with
        | error e => rfl
        | ok slice =>
          change slice.unlabelled.attr "value" >>= _ = _ <$> (slice.attr "value" >>= _)
          rw [attr_unlabelled hvalue]
          cases slice.attr "value" with
          | error e => rfl
          | ok args =>
            change (if args.unlabelled.isKind .tuple then args.unlabelled.attr "elts" >>= _ else _) =
              _ <$> (if args.isKind .tuple then args.attr "elts" >>= _ else _)
            rw [isKind_unlabelled, attr_unlabelled helts, attr_unlabelled hid]
            split
            · cases args.attr "elts" <;> cases head.attr "id" <;> rfl
            · cases head.attr "id" <;> rfl
      · rfl
  · rfl

end Value

namespace Expander

variable {x : Expander} {w t : World} {k : Kind} {as : Attrs} {v : Value}

theorem isCall_eq (x : Expander) (name args : Value) (form : Form) (w : World) :
    x.isCall name args form w =
      (if name.isTruthy && !name.isHashable then .error (.fault (.unhashable name.typeName))
        else .ok ((x.knownValue? w name).any fun b =>
          if form == .name then b.isName else !args.isTruthy || b.isParametric), w) := by
  have hrun := invocable?_run x name w
  unfold isCall
  split at hrun
  next hc => rw [Act.bind_error hrun, if_pos hc]
  next hc =>
    rw [Act.bind_ok hrun, if_neg hc]
    cases x.knownValue? w name with
    | none => rfl
    | some b => cases form <;> rfl

theorem isCall_state (x : Expander) (name args : Value) (form : Form) (w : World) :
    (x.isCall name args form w).2 = w := by
  rw [isCall_eq]

theorem isCall_congr (h : x.known? w = y.known? t) (name args : Value) (form : Form) :
    (x.isCall name args form w).1 = (y.isCall name args form t).1 := by
  have hvalue : x.knownValue? w name = y.knownValue? t name := by
    cases name with
    | str s => exact congrFun h s
    | _ => rfl
  rw [isCall_eq, isCall_eq, hvalue]

theorem isCall_unlabelled (x : Expander) (name args : Value) (form : Form) (w : World) :
    x.isCall name.unlabelled args.unlabelled form w = x.isCall name args form w := by
  have hargs : args.unlabelled.isTruthy = args.isTruthy := isTruthy_unlabelled args
  rw [isCall_eq, isCall_eq, hargs]
  cases name with
  | node k as => simp [unlabelled, isTruthy, isHashable, knownValue?]
  | list xs => simp [unlabelled, isTruthy, isHashable, knownValue?,
      unlabelledItems_eq, typeName]
  | _ => rw [unlabelled_other rfl rfl]

/-- The local condition that detection can read what it looks at, and finds no invocation. There
are no headers of blocks and no decorators in an expression. -/
def passesAt (x : Expander) (w : World) (k : Kind) (as : Attrs) : Bool :=
  (itemsField? k).isNone && (x.invokes (.node k as) w).1.toOption == some false &&
    (k != .constant || (node k as).hasAttr "value")

/-- A visit finds nothing to do in an expression, and nothing to fail at. -/
def passesOver (x : Expander) (w : World) (v : Value) : Bool :=
  v.throughout (fun k => k != .done && k != .name) (x.passesAt w)

theorem passesOver_node : x.passesOver w (.node k as) ↔ x.passesAt w k as ∧
    (k ≠ .done → k ≠ .name → ∀ u ∈ children k as, x.passesOver w u) := by
  rw [passesOver, throughout_node]
  simp only [Bool.and_eq_true, bne_iff_ne, and_imp]
  rfl

theorem invokes_subscript (x : Expander) (as : Attrs) : x.invokes (.node .subscript as) =
    (liftM ((node .subscript as).attr "value") >>= fun head => liftM head.candidate? >>=
      fun c => c.elim (pure false) fun c => x.isCall c.1 c.2 .expr : Expansion Bool) := by
  refine bind_congr fun head => bind_congr fun c => ?_
  rcases c with _ | ⟨name, args⟩ <;> rfl

theorem invokes_name (x : Expander) (as : Attrs) : x.invokes (.node .name as) =
    (liftM ((node .name as).attr "id") >>= fun name =>
      x.isCall name .none .name : Expansion Bool) := rfl

theorem invokes_other (x : Expander) (hk : itemsField? k = none) (hsubscript : k ≠ .subscript)
    (hname : k ≠ .name) (as : Attrs) : x.invokes (.node k as) = pure false := by
  unfold invokes
  simp only [kind?]
  split <;> simp_all [itemsField?]

private theorem invokes_congr (h : x.known? w = y.known? t) (hk : itemsField? k = none)
    (as : Attrs) : (x.invokes (.node k as) w).1 = (y.invokes (.node k as) t).1 := by
  by_cases hsubscript : k = .subscript
  · subst hsubscript
    rw [invokes_subscript, invokes_subscript]
    cases (node .subscript as).attr "value" with
    | error e => rfl
    | ok head =>
      rw [lift_bind_ok rfl, lift_bind_ok rfl]
      cases head.candidate? with
      | error e => rfl
      | ok c =>
        rw [lift_bind_ok rfl, lift_bind_ok rfl]
        cases c with
        | none => rfl
        | some c => exact isCall_congr h c.1 c.2 .expr
  by_cases hname : k = .name
  · subst hname
    rw [invokes_name, invokes_name]
    cases (node .name as).attr "id" with
    | error e => rfl
    | ok name =>
      rw [lift_bind_ok rfl, lift_bind_ok rfl]
      exact isCall_congr h name .none .name
  rw [invokes_other x hk hsubscript hname, invokes_other y hk hsubscript hname]
  rfl

private theorem invokes_unlabelled (hk : itemsField? k = none) (as : Attrs) :
    x.invokes (.node k (unlabelledAttrs as)) w = x.invokes (.node k as) w := by
  have hvalue : isHidden "value" = false := Kind.isHidden_of_mem (k := .subscript) (by decide)
  have hid : isHidden "id" = false := Kind.isHidden_of_mem (k := .name) (by decide)
  have hnode : node k (unlabelledAttrs as) = (node k as).unlabelled := by
    rw [unlabelled]
  by_cases hsubscript : k = .subscript
  · subst hsubscript
    rw [invokes_subscript, invokes_subscript, hnode, attr_unlabelled hvalue]
    cases (node .subscript as).attr "value" with
    | error e => rfl
    | ok head =>
      have hhead : unlabelled <$> (.ok head : Except Error Value) = .ok head.unlabelled := rfl
      rw [lift_bind_ok hhead, lift_bind_ok rfl, candidate?_unlabelled]
      cases head.candidate? with
      | error e => rfl
      | ok c =>
        cases c with
        | none => rfl
        | some c => exact isCall_unlabelled x c.1 c.2 .expr w
  by_cases hname : k = .name
  · subst hname
    rw [invokes_name, invokes_name, hnode, attr_unlabelled hid]
    cases (node .name as).attr "id" with
    | error e => rfl
    | ok name =>
      exact isCall_unlabelled x name .none .name w
  rw [invokes_other x hk hsubscript hname, invokes_other x hk hsubscript hname]

theorem passesAt_iff : x.passesAt w k as ↔ itemsField? k = none ∧
    (x.invokes (.node k as) w).1 = .ok false ∧
    (k = .constant → ∃ u, (node k as).attr "value" = .ok u) := by
  have hinvokes : ((x.invokes (.node k as) w).1.toOption == some false) ↔
      (x.invokes (.node k as) w).1 = .ok false := by
    cases (x.invokes (.node k as) w).1 <;> simp [Except.toOption]
  have hvalue : (k != .constant || (node k as).hasAttr "value") ↔
      (k = .constant → ∃ u, (node k as).attr "value" = .ok u) := by
    rw [hasAttr, attr]
    cases (node k as).attr? "value" <;> simp
  rw [passesAt, Bool.and_eq_true, Bool.and_eq_true, hinvokes, hvalue, Option.isNone_iff_eq_none,
    and_assoc]

theorem passesOver_congr (h : x.known? w = y.known? t) (v : Value) :
    x.passesOver w v = y.passesOver t v := by
  have hat : x.passesAt w = y.passesAt t := by
    funext k as
    cases hk : itemsField? k with
    | some items => simp [passesAt, hk]
    | none => rw [passesAt, passesAt, invokes_congr h hk]
  rw [passesOver, passesOver, hat]

theorem passesOver_unlabelled (v : Value) : x.passesOver w v.unlabelled = x.passesOver w v := by
  have hvalue : isHidden "value" = false := Kind.isHidden_of_mem (k := .constant) (by decide)
  refine throughout_unlabelled (fun k as => ?_) v
  cases hk : itemsField? k with
  | some items => simp [passesAt, hk]
  | none =>
    have hattr := attr?_unlabelled hvalue (.node k as)
    rw [unlabelled] at hattr
    rw [passesAt, passesAt, invokes_unlabelled hk, hasAttr, hattr, Option.isSome_map,
      hasAttr]

theorem passesOver_entered (hitems : itemsField? k = none) (hdone : k ≠ .done)
    (hname : k ≠ .name) (as : Attrs) : x.passesOver w (.node k as) =
      ((x.invokes (.node k as) w).1.toOption == some false &&
        (k != .constant || (node k as).hasAttr "value") &&
          (children k as).all (x.passesOver w)) := by
  rw [passesOver, throughout_node_eq, passesAt, hitems, bne_iff_ne.mpr hdone,
    bne_iff_ne.mpr hname]
  rfl

theorem passesOver_plain (hitems : itemsField? k = none)
    (hk : k ∉ [Kind.done, .name, .subscript, .constant]) (as : Attrs) :
    x.passesOver w (.node k as) = (children k as).all (x.passesOver w) := by
  simp only [List.mem_cons, List.not_mem_nil, or_false, not_or] at hk
  obtain ⟨hdone, hname, hsubscript, hconstant⟩ := hk
  rw [passesOver_entered hitems hdone hname, invokes_other x hitems hsubscript hname,
    bne_iff_ne.mpr hconstant]
  exact Bool.true_and _

/-! ## Visits -/

/-- No macro is invoked in an expression. -/
def invokesNone (x : Expander) (w : World) (v : Value) : Bool :=
  v.throughout (fun k => k != .done && k != .name) fun k as =>
    (itemsField? k).isNone && !x.isInvocation w (.node k as)

theorem invokesNone_node : x.invokesNone w (.node k as) ↔
    (itemsField? k = none ∧ x.isInvocation w (.node k as) = false) ∧
      (k ≠ .done → k ≠ .name → ∀ u ∈ children k as, x.invokesNone w u) := by
  rw [invokesNone, throughout_node]
  simp only [Bool.and_eq_true, bne_iff_ne, and_imp, Option.isNone_iff_eq_none, Bool.not_eq_true']
  rfl

theorem invokesNone_congr (h : x.known? w = y.known? t) (v : Value) :
    x.invokesNone w v = y.invokesNone t v := by
  have hat : (fun k as => (itemsField? k).isNone && !x.isInvocation w (.node k as)) =
      fun k as => (itemsField? k).isNone && !y.isInvocation t (.node k as) := by
    funext k as
    cases hk : itemsField? k with
    | some items => rw [Option.isNone_some, Bool.false_and, Bool.false_and]
    | none => rw [isInvocation, isInvocation, invokes_congr h hk]
  rw [invokesNone, invokesNone, hat]

theorem invokesNone_unlabelled (v : Value) : x.invokesNone w v.unlabelled = x.invokesNone w v := by
  refine throughout_unlabelled (fun k as => ?_) v
  cases hk : itemsField? k with
  | some items => rw [Option.isNone_some, Bool.false_and, Bool.false_and]
  | none => rw [isInvocation, isInvocation, invokes_unlabelled hk]

theorem invokesNone_of_passesOver (h : x.passesOver w v) : x.invokesNone w v := by
  refine throughout_mono (fun k as hat => ?_) h
  obtain ⟨hitems, hinvokes, -⟩ := passesAt_iff.mp hat
  simp [hitems, isInvocation, hinvokes]

section

variable {expand : Invocation → Expansion Value} {b : Bool}

/-- To read what stands before brackets may fail. -/
private theorem reads_visitSubscript_of_not_isInvocation {children : Expansion Value}
    (h : x.isInvocation w (.node .subscript as) = false)
    (hr : Reads children w b (.node .subscript as) fun _ => True) :
    Reads (visitSubscript x expand (.node .subscript as) children) w
      ((x.invokes (.node .subscript as) w).1.toOption == some false && b)
      (.node .subscript as) fun _ => True := by
  rw [isInvocation] at h
  rw [invokes_subscript] at h ⊢
  rw [visitSubscript]
  cases hhead : (node .subscript as).attr "value" with
  | error e => exact ⟨e, trivial, rfl⟩
  | ok head =>
    rw [hhead] at h
    refine Reads.after (a := head) rfl ?_
    rw [lift_bind_ok rfl] at h ⊢
    cases hc : head.candidate? with
    | error e => exact ⟨e, trivial, rfl⟩
    | ok c =>
      rw [hc] at h
      refine Reads.after (a := c) rfl ?_
      rw [lift_bind_ok rfl] at h ⊢
      rcases c with _ | ⟨name, args⟩
      · exact hr
      · have hstate := isCall_state x name args .expr w
        rw [Option.elim_some] at h
        change Reads _ w ((x.isCall name args .expr w).1.toOption == some false && b) _ _
        generalize hcall : x.isCall name args .expr w = out at h hstate ⊢
        obtain ⟨r, t⟩ := out
        obtain rfl : t = w := hstate
        rcases r with e | _ | _
        · exact ⟨e, trivial, Act.bind_error hcall⟩
        · exact Reads.after hcall hr
        · cases h

private theorem reads_visitName_of_not_isInvocation {visit : Visit}
    (h : x.isInvocation w (.node .name as) = false) :
    Reads (visitName x expand visit (.node .name as)) w
      ((x.invokes (.node .name as) w).1.toOption == some false) (.node .name as) fun _ => True := by
  rw [isInvocation] at h
  rw [invokes_name] at h ⊢
  rw [visitName]
  cases hname : (node .name as).attr "id" with
  | error e => exact ⟨e, trivial, rfl⟩
  | ok name =>
    rw [hname] at h
    refine Reads.after (a := name) rfl ?_
    rw [lift_bind_ok rfl] at h ⊢
    have hstate := isCall_state x name .none .name w
    generalize hcall : x.isCall name .none .name w = out at h hstate ⊢
    obtain ⟨r, t⟩ := out
    obtain rfl : t = w := hstate
    rcases r with e | _ | _
    · exact ⟨e, trivial, Act.bind_error hcall⟩
    · exact Reads.after hcall (Reads.of_run rfl)
    · cases h

end

theorem passesOver_name (as : Attrs) : x.passesOver w (.node .name as) =
    ((x.invokes (.node .name as) w).1.toOption == some false) := by
  have hname : (Kind.name != .name) = false := rfl
  have hconstant : (Kind.name != .constant) := rfl
  rw [passesOver, throughout_node_eq, passesAt, hname, hconstant]
  simp [itemsField?]

theorem passesOver_of_bare {m : String} (hid : get? as "id" = some (.str m))
    (hbare : ∀ b, x.known? w m = some b → b.isName = false) :
    x.passesOver w (.node .name as) := by
  rw [passesOver_name, invokes_name, lift_bind_ok (attr_of_get? hid), isCall_run]
  cases hknown : x.known? w m with
  | none => rfl
  | some b =>
    simp only [hbare b hknown]
    rfl

theorem reads_walk_of_invokesNone (expand : Invocation → Expansion Value) (visit : Visit)
    (hidle : x.isIdle w = false) (hn : v.isNode) (hl : v.hasLabels)
    (h : x.invokesNone w v) :
    Reads (x.walk expand visit v) w (x.passesOver w v) v fun _ => True := by
  induction v using walkInduction with
  | rest v hrest =>
    rw [hn] at hrest
    cases hrest
  | node k as ih =>
    obtain ⟨⟨hitems, hnot⟩, hbelow⟩ := invokesNone_node.mp h
    rw [walk, fold_node, visitNode]
    refine Reads.after (Act.get_run w) ?_
    rw [hidle, Bool.false_or]
    by_cases hdone : k = .done
    · subst hdone
      exact Reads.of_run rfl
    rw [if_neg (by simpa using hdone)]
    by_cases hname : k = .name
    · subst hname
      rw [passesOver_name]
      exact reads_visitName_of_not_isInvocation hnot
    have hr : Reads (visitChildren k as (foldAttrs (visitNode x expand visit)
        (fun v items _ => visitRest x v items) as)) w
        ((children k as).all (x.passesOver w)) (.node k as) fun _ => True :=
      reads_rebuild hl fun u hu =>
        ih u hu (isNode_of_mem_children hu) (hasLabels_of_mem_children hl hu)
          (hbelow hdone hname u hu)
    rw [passesOver_entered hitems hdone hname]
    split
    · have hconstant : (Kind.subscript != .constant) := rfl
      rw [hconstant, Bool.true_or, Bool.and_true]
      exact reads_visitSubscript_of_not_isInvocation hnot hr
    · cases hitems
    · cases hitems
    · cases hitems
    · exact (hname rfl).elim
    · have hconstant : (Kind.constant != .constant) = false := rfl
      rw [invokes_other x rfl (by simp) (by simp), hconstant, Bool.false_or, hasAttr,
        attr]
      cases (node .constant as).attr? "value" with
      | none => exact ⟨_, trivial, rfl⟩
      | some u => exact Reads.after (a := u) rfl hr
    next hsubscript _ _ _ _ hconstant =>
      rw [invokes_other x hitems hsubscript hname, bne_iff_ne.mpr hconstant]
      exact hr

theorem walk_of_passesOver (expand : Invocation → Expansion Value) (visit : Visit)
    (hn : v.isNode) (hl : v.hasLabels) (h : x.passesOver w v) :
    x.walk expand visit v w = (.ok v, w) := by
  cases hidle : x.isIdle w with
  | true => exact walk_of_isIdle expand visit v hidle
  | false =>
    have hr := reads_walk_of_invokesNone expand visit hidle hn hl (invokesNone_of_passesOver h)
    rwa [h] at hr

end Expander

end TreeMacros
