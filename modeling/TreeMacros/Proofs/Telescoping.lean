import TreeMacros.Proofs.FailureReports
import TreeMacros.Proofs.Settling

/-!
# Reports of nested uses

A macro that is at work can have a tree visited, and the visit may come to an invocation of another
macro, which can do the same. If the innermost macro fails and the others let the failure through,
one report is left. It names all the uses, outermost first, and rests on the failure itself.
-/

namespace TreeMacros

open Value hiding none set
open Attrs (get?)
open Act (bind_eq_ok bind_ok get_run lift_bind_ok)

variable {rest : List Value} {name args tree : Value}

namespace Act

variable {σ α β : Type} {act : Act σ α} {f : α → Act σ β} {s t : σ} {e : Error}

def Fails (act : Act σ α) (s : σ) (e : Error) : Prop := (act s).1 = .error e

theorem Fails.bind (h : Fails act s e) (f : α → Act σ β) : Fails (act >>= f) s e := by
  have hact : act s = (.error e, (act s).2) := Prod.ext h rfl
  rw [Fails, bind_error hact]

theorem Fails.of_run {act' : Act σ α} (h : Fails act' t e) (hrun : act s = act' t) :
    Fails act s e := by
  rw [Fails, hrun]
  exact h

theorem fails_bind {a : α} (h : act s = (.ok a, t)) (hf : Fails (f a) t e) :
    Fails (act >>= f) s e := by
  rw [Fails, bind_ok h]
  exact hf

theorem fails_lift_bind {r : Except Error α} {a : α} (h : r = .ok a) (hf : Fails (f a) s e) :
    Fails ((liftM r : Act σ α) >>= f) s e :=
  fails_bind (by rw [lift_run, h]) hf

theorem fails_within {before : σ → σ} {after : σ → σ → σ} (h : Fails act (before s) e) :
    Fails (within before after act) s e := h

theorem fails_attempt_bind {f : Except Error α → Act σ β} (h : Fails act s e)
    (hf : ∀ t, Fails (f (.error e)) t e) : Fails (attempt act >>= f) s e := by
  have hattempt : attempt act s = (.ok (.error e), (act s).2) := by
    change (Except.ok (act s).1, (act s).2) = _
    rw [show (act s).1 = .error e from h]
  exact fails_bind hattempt (hf _)

theorem fails_mapM {γ : Type} {f : γ → Act σ α} {xs ys : List γ} {z : γ} {rs : List α}
    (h : xs.mapM f s = (.ok rs, t)) (hz : Fails (f z) t e) :
    Fails ((xs ++ z :: ys).mapM f) s e := by
  rw [List.mapM_append, List.mapM_cons]
  exact fails_bind h ((hz.bind _).bind _)

end Act

open Act (Fails fails_bind fails_lift_bind fails_within fails_attempt_bind fails_mapM)

/-! ## Texts of reports -/

/-- The text of a report on nested uses. -/
def telescope (sites : List String) : String :=
  (if 2 ≤ sites.length then "\n" else "") ++ "\n".intercalate sites

theorem telescope_singleton (site : String) : telescope [site] = site := by
  simp [telescope]

/-- One more use is put in front of the others. The newline in front of them is dropped, so that
there is one between any two. -/
theorem atUse_telescope {site first : String} {rest : List String} {c : Error}
    (hfirst : ∃ a as, first.toList = a :: as ∧ a ≠ '\n') :
    (Error.report (.useSite (telescope (first :: rest))) (some c)).atUse site =
      .report (.useSite (telescope (site :: first :: rest))) (some c) := by
  obtain ⟨a, as, hfirst, ha⟩ := hfirst
  have hjoined : telescope (site :: first :: rest) =
      "\n" ++ site ++ "\n" ++ "\n".intercalate (first :: rest) := by
    rw [telescope, String.intercalate_cons_cons, if_pos (by simp), String.append_assoc,
      String.append_assoc, String.append_assoc]
  have hargument : (Error.report (.useSite (telescope (first :: rest))) (some c)).argument? =
      some (telescope (first :: rest)) := rfl
  rw [hjoined]
  unfold Error.atUse
  simp only [Error.kind, Error.cause?, hargument, Option.map_some]
  cases rest with
  | nil =>
    rw [telescope_singleton, hfirst, String.intercalate_singleton]
    simp only [Report.kind]
    rw [← hfirst, String.ofList_toList]
  | cons second rest =>
    have htext : (telescope (first :: second :: rest)).toList =
        '\n' :: ("\n".intercalate (first :: second :: rest)).toList := by
      rw [telescope, if_pos (by simp), String.toList_append]
      rfl
    rw [htext]
    simp only [Report.kind, String.ofList_toList]

namespace Expander

variable {x y : Expander} {visit : Visit} {m : Macro} {i j : Invocation} {e : Error} {w s t u : World}
  {depth d : Nat} {v : Value} {k : Kind} {as : Attrs}

/-- What the report on a failed use says about the use. -/
def reportOf (x : Expander) (i : Invocation) : String :=
  useSite (x.placeOf i) i.call.form i.name.display

theorem reportOf_congr (h : x.filename = y.filename) : x.reportOf = y.reportOf := by
  funext i
  rw [reportOf, reportOf, placeOf, placeOf, h]

theorem toList_reportOf (h : x.filename.toList.head? ≠ some '\n') (i : Invocation) :
    ∃ a as, (x.reportOf i).toList = a :: as ∧ a ≠ '\n' := by
  have htext : ∃ rest, (x.reportOf i).toList = x.filename.toList ++ ':' :: rest := by
    rw [reportOf, useSite, placeOf, formatLocation]
    simp [String.toList_append, toString]
  obtain ⟨rest, htext⟩ := htext
  rw [htext]
  cases hfile : x.filename.toList with
  | nil => exact ⟨':', rest, rfl, by decide⟩
  | cons a as =>
    refine ⟨a, as ++ ':' :: rest, rfl, fun ha => h ?_⟩
    rw [hfile, ha, List.head?_cons]

/-! ## Invocations that a visit comes to -/

/-- The tree as a whole is an invocation: a visit to it in the state `w` first of all expands `i`,
in the state `s`. -/
inductive Invokes (x : Expander) (v : Value) (w : World) : Invocation → World → Prop
  | expr {head name args slice tree : Value} {s : World} (hkind : v.kind? = some .subscript)
      (hhead : v.attr "value" = .ok head) (hcandidate : head.candidate? = .ok (some (name, args)))
      (hcall : x.isCall name args .expr w = (.ok true, s)) (hslice : v.attr "slice" = .ok slice)
      (htree : slice.attr "value" = .ok tree) :
      Invokes x v w ⟨name, v.sourceOrExplain false, ⟨.expr, tree, none, args, none, v⟩⟩ s
  | block {items item header name args inner target tree : Value} {ds : List (Value × Bool)}
      {rest : List Value} {m s : World} (hkind : v.kind? = some .withStmt)
      (hitems : v.attr "items" = .ok items) (hdetect : x.detect .block items w = (.ok ds, m))
      (hpop : popFirst ds = some (item, rest)) (hheader : item.attr "context_expr" = .ok header)
      (hcandidate : candidate header = .ok (name, args))
      (hremovable : requireRemovable items = .ok ())
      (hinner : (v.refill "items" rest : Expansion Value) m = (.ok inner, s))
      (htarget : item.attr "optional_vars" = .ok target)
      (htree : (if rest.isEmpty then v.attr "body" else .ok (.list [inner])) = .ok tree) :
      Invokes x v w ⟨name, v.sourceOrExplain false,
        ⟨.block, tree, if rest.isEmpty then v.listLabel? "body" else none, args, some target,
          v.shallowCopy "items"⟩⟩ s
  | decorator {decorators item name args tree : Value} {ds : List (Value × Bool)}
      {rest : List Value} {m s : World}
      (hkind : v.kind? = some .functionDef ∨ v.kind? = some .classDef)
      (hdecorators : v.attr "decorator_list" = .ok decorators)
      (hdetect : x.detect .decorator decorators w = (.ok ds, m))
      (hpop : popLast ds = some (item, rest)) (hcandidate : candidate item = .ok (name, args))
      (hremovable : requireRemovable decorators = .ok ())
      (htree : (v.refill "decorator_list" rest : Expansion Value) m = (.ok tree, s)) :
      Invokes x v w ⟨name, v.sourceOrExplain false,
        ⟨.decorator, tree, none, args, none, v.shallowCopy "decorator_list"⟩⟩ s
  | name {name : Value} {m : World} (hkind : v.kind? = some .name)
      (hname : v.attr "id" = .ok name) (hcall : x.isCall name .none .name w = (.ok true, m)) :
      Invokes x v w ⟨name, v.sourceOrExplain false, ⟨.name, v, none, .none, none, v⟩⟩
        { m with recursive := false }

/-- The node is no invocation as a whole: a visit to it goes on to its children. -/
structure PassesBy (x : Expander) (k : Kind) (as : Attrs) (w m : World) : Prop where
  awake : x.isIdle w = false
  undone : k ≠ .done
  nameless : k ≠ .name
  stored : k = .constant → ∃ u, (node k as).attr "value" = .ok u
  invokesNothing : x.invokes (.node k as) w = (.ok false, m)

def partsOf (x : Expander) (depth : Nat) (as : Attrs) : Parts (Expansion Value) :=
  foldAttrs (visitNode x (x.expand (visitAt depth)) (visitAt depth))
    (fun v items _ => visitRest x v items) as

/-- A visit to `v` from the state `w`, `depth` levels deep at most, comes to the invocation `i` in
the state `s`, where `d` levels are left. -/
inductive Meets (x : Expander) : Nat → Value → World → Nat → Invocation → World → Prop
  | here {depth : Nat} {k : Kind} {as : Attrs} {w s : World} {i : Invocation}
      (hawake : x.isIdle w = false) (h : x.Invokes (.node k as) w i s) :
      Meets x (depth + 1) (.node k as) w depth i s
  | child {depth d : Nat} {k c : Kind} {as bs cs : Attrs} {w m n s : World} {i : Invocation}
      {before after : List String} {name : String} (hpass : x.PassesBy k as w m)
      (hfields : k.fieldNames = before ++ name :: after)
      (hbefore : rebuild.go (fun _ (i : Item (Expansion Value)) => i.result)
        (x.partsOf depth as) before as m = (.ok bs, n))
      (hget : get? as name = some (.node c cs))
      (h : Meets x (depth + 1) (.node c cs) n d i s) : Meets x (depth + 1) (.node k as) w d i s
  | element {depth d : Nat} {k : Kind} {as bs : Attrs} {w m n o s : World} {i : Invocation}
      {before after : List String} {name : String} {xs ys rs : List Value} {u : Value}
      (hpass : x.PassesBy k as w m) (hfields : k.fieldNames = before ++ name :: after)
      (hbefore : rebuild.go (fun _ (i : Item (Expansion Value)) => i.result)
        (x.partsOf depth as) before as m = (.ok bs, n))
      (hget : get? as name = some (.list (xs ++ u :: ys))) (hnode : u.isNode = true)
      (hxs : rebuildList (·.result) (xs.map fun v => ⟨v, visitAt (depth + 1) x v⟩) n =
        (.ok rs, o))
      (h : Meets x (depth + 1) u o d i s) : Meets x (depth + 1) (.node k as) w d i s
  | statement {depth d : Nat} {w m s : World} {i : Invocation} {xs ys rs : List Value} {u : Value}
      (hawake : x.isIdle w = false) (hxs : xs.mapM (visitAt (depth + 1) x) w = (.ok rs, m))
      (h : Meets x (depth + 1) u m d i s) : Meets x (depth + 1) (.list (xs ++ u :: ys)) w d i s
  -- What a macro has given is visited in turn, once the macro has ended.
  | output {depth d d' : Nat} {v r fixed : Value} {w m n s t : World} {i j : Invocation}
      (h : Meets x depth v w d j s) (hout : x.outputOf (visitAt d) j s = (.ok r, m))
      (hsome : r.isNone = false) (hfixed : fillIn j.call.invocation r m = (.ok fixed, n))
      (hrecursive : n.recursive = true) (h' : Meets x d fixed n d' i t) : Meets x depth v w d' i t
  | renamed {depth d : Nat} {as : Attrs} {name r : Value} {w m n s : World} {i : Invocation}
      (hawake : x.isIdle w = false) (hname : (node .name as).attr "id" = .ok name)
      (hcall : x.isCall name .none .name w = (.ok true, m))
      (hout : Expansion.inMode false (x.expand (visitAt depth)
        ⟨name, (node .name as).sourceOrExplain false,
          ⟨.name, .node .name as, none, .none, none, .node .name as⟩⟩) m = (.ok r, n))
      (hsome : r.isNone = false)
      (hother : r.isKind .name = true → ∃ other, r.attr "id" = .ok other ∧ other.same name = false)
      (hrecursive : n.recursive = true) (h : Meets x depth r n d i s) :
      Meets x (depth + 1) (.node .name as) w d i s

section

variable {expand : Invocation → Expansion Value} {children : Expansion Value}

private theorem fails_visitSubscript {head slice : Value} (hhead : v.attr "value" = .ok head)
    (hcandidate : head.candidate? = .ok (some (name, args)))
    (hcall : x.isCall name args .expr w = (.ok true, s)) (hslice : v.attr "slice" = .ok slice)
    (htree : slice.attr "value" = .ok tree)
    (he : Fails (expand ⟨name, v.sourceOrExplain false, ⟨.expr, tree, none, args, none, v⟩⟩) s e) :
    Fails (visitSubscript x expand v children) w e := by
  refine fails_lift_bind hhead (fails_lift_bind hcandidate (fails_bind hcall ?_))
  exact fails_lift_bind hslice (fails_lift_bind htree he)

private theorem fails_visitName {r : Value} {n o : World} (hname : v.attr "id" = .ok name)
    (hcall : x.isCall name .none .name w = (.ok true, n))
    (hout : Expansion.inMode false (expand ⟨name, v.sourceOrExplain false,
      ⟨.name, v, none, .none, none, v⟩⟩) n = (.ok r, o)) (hsome : r.isNone = false)
    (hother : r.isKind .name → ∃ other, r.attr "id" = .ok other ∧ other.same name = false)
    (hrecursive : o.recursive) (he : Fails (visit x r) o e) :
    Fails (visitName x expand visit v) w e := by
  have hend : Fails (get >>= fun t : World => if t.recursive then visit x r else pure r) o e := by
    refine fails_bind (get_run o) ?_
    rwa [if_pos hrecursive]
  refine fails_lift_bind hname (fails_bind hcall (fails_bind hout ?_))
  rw [if_neg (by simp [hsome])]
  split
  next hkind =>
    obtain ⟨other, hattr, hdiffers⟩ := hother hkind
    refine fails_lift_bind hattr (fails_bind (Act.pure_run _ _) ?_)
    rwa [hdiffers]
  next => exact fails_bind (Act.pure_run _ _) hend

theorem fails_walk_of_invokes (hawake : x.isIdle w = false) (h : x.Invokes (.node k as) w i s)
    (he : Fails (expand i) s e) : Fails (x.walk expand visit (.node k as)) w e := by
  have hstart (hdone : k ≠ .done) {act : Expansion Value} (hact : Fails act w e) :
      Fails (get >>= fun t : World =>
        if x.isIdle t || k == .done then pure (node k as) else act) w e := by
    refine fails_bind (get_run w) ?_
    rwa [if_neg (by simp [hawake, hdone])]
  rw [walk, fold_node]
  cases h with
  | expr hkind hhead hcandidate hcall hslice htree =>
    cases hkind
    exact hstart (by decide) (fails_visitSubscript hhead hcandidate hcall hslice htree he)
  | block hkind hitems hdetect hpop hheader hcandidate hremovable hinner htarget htree =>
    cases hkind
    exact hstart (by decide) ((he.bind _).of_run (visitWith_run hitems hdetect hpop hheader
      hcandidate hremovable hinner htarget htree))
  | decorator hkind hdecorators hdetect hpop hcandidate hremovable htree =>
    rcases hkind with hkind | hkind
    all_goals
      cases hkind
      exact hstart (by decide) ((he.bind _).of_run (visitDecorated_run hdecorators hdetect hpop
        hcandidate hremovable htree))
  | name hkind hname hcall =>
    cases hkind
    refine hstart (by decide) (fails_lift_bind hname (fails_bind hcall ?_))
    exact Fails.bind (fails_within he) _

theorem visitNode_of_passesBy {parts : Parts (Expansion Value)} {n : World}
    (h : x.PassesBy k as w n) :
    visitNode x expand visit k as parts w = visitChildren k as parts n := by
  have hinvokes := h.invokesNothing
  unfold visitNode
  rw [bind_ok (get_run w), if_neg (by simp [h.awake, h.undone])]
  cases k with
  | subscript =>
    obtain ⟨head, hhead, hinvokes⟩ := Act.lift_bind_eq_ok.mp hinvokes
    obtain ⟨c, hc, hinvokes⟩ := Act.lift_bind_eq_ok.mp hinvokes
    dsimp only
    unfold visitSubscript
    rw [lift_bind_ok hhead, lift_bind_ok hc]
    rcases c with _ | ⟨name, args⟩
    · cases hinvokes
      rfl
    · exact bind_ok hinvokes
  | withStmt =>
    obtain ⟨items, hitems, hinvokes⟩ := Act.lift_bind_eq_ok.mp hinvokes
    obtain ⟨ds, o, hds, hinvokes⟩ := bind_eq_ok.mp hinvokes
    obtain ⟨hany, rfl⟩ := Prod.mk.inj hinvokes
    dsimp only
    unfold visitWith
    rw [lift_bind_ok hitems, bind_ok hds, popFirst_of_any (Except.ok.inj hany)]
  | functionDef | classDef =>
    obtain ⟨decorators, hdecorators, hinvokes⟩ := Act.lift_bind_eq_ok.mp hinvokes
    obtain ⟨ds, o, hds, hinvokes⟩ := bind_eq_ok.mp hinvokes
    obtain ⟨hany, rfl⟩ := Prod.mk.inj hinvokes
    dsimp only
    unfold visitDecorated
    rw [lift_bind_ok hdecorators, bind_ok hds, popLast_of_any (Except.ok.inj hany)]
  | name => exact absurd rfl h.nameless
  | constant =>
    cases hinvokes
    obtain ⟨u, hu⟩ := h.stored rfl
    exact lift_bind_ok hu
  | _ =>
    cases hinvokes
    rfl

end

/-! ## Failures below a node -/

section

variable {β : Type} {parts : Parts β} {f : String → Item β → Expansion Value}

private theorem fails_rebuildList {f : Item β → Expansion Value} {is js : List (Item β)}
    {z : Item β} {rs : List Value} (h : rebuildList f is w = (.ok rs, t))
    (hz : Fails (f z) t e) (hnode : z.value.isNode) :
    Fails (rebuildList f (is ++ z :: js)) w e := by
  induction is generalizing w rs with
  | nil =>
    cases h
    rw [List.nil_append, rebuildList_cons_node _ _ hnode]
    exact hz.bind _
  | cons i is ih =>
    rw [List.cons_append]
    cases hi : i.value.isNode with
    | true =>
      rw [rebuildList_cons_node _ _ hi] at h ⊢
      obtain ⟨r, o, hr, h⟩ := bind_eq_ok.mp h
      obtain ⟨here, o', hhere, h⟩ := bind_eq_ok.mp h
      obtain ⟨rest, o'', hrest, h⟩ := bind_eq_ok.mp h
      cases h
      exact fails_bind hr (fails_bind hhere ((ih hrest).bind _))
    | false =>
      rw [rebuildList_cons_other _ _ hi] at h ⊢
      obtain ⟨rest, o, hrest, h⟩ := bind_eq_ok.mp h
      cases h
      exact (ih hrest).bind _

private theorem fails_go {before after : List String} {name : String} {as bs : Attrs} {p : Part β}
    (h : rebuild.go f parts before as w = (.ok bs, t)) (hp : parts.lookup name = some p)
    (hfails : ∀ cs, Fails (rebuildAttr (f name) cs name p) t e) :
    Fails (rebuild.go f parts (before ++ name :: after) as) w e := by
  induction before generalizing as w with
  | nil =>
    cases h
    rw [List.nil_append, rebuild.go, hp]
    exact (hfails _).bind _
  | cons other before ih =>
    rw [List.cons_append]
    unfold rebuild.go at h ⊢
    cases hother : parts.lookup other with
    | none =>
      simp only [hother] at h ⊢
      exact ih h
    | some q =>
      simp only [hother] at h ⊢
      obtain ⟨cs, o, hcs, h⟩ := bind_eq_ok.mp h
      exact fails_bind hcs (ih h)

end

theorem visitAt_list (depth : Nat) (x : Expander) (xs : List Value) :
    visitAt (depth + 1) x (.list xs) =
      visitRest x (.list xs) (xs.map fun v => ⟨v, visitAt (depth + 1) x v⟩) := by
  change visitRest x (.list xs) (foldItems _ _ xs) = _
  rw [foldItems_eq]
  rfl

/-- If the expansion of an invocation fails, so does the visit that comes to it, with the same
error. -/
theorem fails_visitAt_of_meets (h : x.Meets depth v w d i s)
    (he : Fails (x.expand (visitAt d) i) s e) : Fails (visitAt depth x v) w e := by
  induction h with
  | here hawake h => exact fails_walk_of_invokes hawake h he
  | @child depth _ k c as _ cs _ _ _ _ _ _ _ name hpass hfields hbefore hget h ih =>
    refine Fails.of_run (Fails.bind ?_ _) (visitNode_of_passesBy hpass)
    rw [hfields]
    have hp : (x.partsOf depth as).lookup name = some _ :=
      (lookup_foldAttrs _ _ as name).trans (congrArg _ hget)
    exact fails_go hbefore hp fun bs => (ih he).bind _
  | @element depth _ k as _ _ _ _ _ _ _ _ _ name xs ys rs u hpass hfields hbefore hget hnode hxs h ih =>
    refine Fails.of_run (Fails.bind ?_ _) (visitNode_of_passesBy hpass)
    rw [hfields]
    have hp : (x.partsOf depth as).lookup name = some _ :=
      (lookup_foldAttrs _ _ as name).trans (congrArg _ hget)
    refine fails_go hbefore hp fun bs => Fails.bind ?_ _
    rw [foldPart, foldItems_eq, List.map_append]
    exact fails_rebuildList hxs (ih he) hnode
  | @statement depth _ _ _ _ _ xs ys rs u hawake hxs h ih =>
    rw [visitAt_list]
    refine fails_bind (get_run _) ?_
    rw [if_neg (by simp [hawake])]
    refine Fails.bind ?_ _
    rw [List.mapM_map]
    exact fails_mapM hxs (ih he)
  | output h hout hsome hfixed hrecursive h' ih ih' =>
    refine ih ?_
    rw [expand_eq]
    refine fails_bind hout ?_
    rw [settle_eq, if_neg (by simp [hsome])]
    refine fails_bind hfixed (fails_bind (get_run _) ?_)
    rw [if_pos hrecursive]
    exact ih' he
  | @renamed depth _ as _ r _ _ _ _ _ hawake hname hcall hout hsome hother hrecursive h ih =>
    have hname' := fails_visitName hname hcall hout hsome hother hrecursive (ih he)
    change Fails (visitNode x (x.expand (visitAt depth)) (visitAt depth) .name as
      (x.partsOf depth as)) _ e
    refine fails_bind (get_run _) ?_
    rwa [if_neg (by simp [hawake])]

/-! ## Macros that have trees visited -/

def entering (w : World) : Scope → Except Error World
  | .quote delta => do return { w with quoteLevels := ← w.quoteLevels.changedBy delta }
  | .step delta => do return { w with stepLevels := ← w.stepLevels.changedBy delta }

/-- The state in which a visit starts. -/
def starting (w : World) : Extent → World
  | .current => w
  | .recursive => { w with recursive := true }
  | .once => { w with recursive := false }

/-- What is visited on a request, by which expander and in which state. -/
def visited? (x : Expander) (w : World) : Request → Option (Expander × Value × World)
  | .visit extent _ v =>
    some (x, (v.labelled w.journal.next).1, (starting w extent).labelling v)
  | .unquote _ v =>
    some (⟨(x.allBindings w).filter fun b => isQuotationOperator b.2, x.filename⟩,
      (v.labelled w.journal.next).1, { w with recursive := true }.labelling v)
  | _ => none

/-- The program `p`, run from the state `w`, comes to the request `r` in the state `s`, and ends
with the error if that fails. -/
inductive Asks (visit : Visit) (x : Expander) (m : Macro) : Program → World → Request → World → Prop
  | now {r : Request} {next : Except Error r.Reply → Program} {w : World}
      (hnext : ∀ e t, Fails (run visit x m (next (.error e))) t e) : Asks visit x m (.ask r next) w r w
  | later {q r : Request} {next : Except Error q.Reply → Program} {w t s : World}
      {a : Except Error q.Reply} (ha : answer visit x m q w = (a, t))
      (h : Asks visit x m (next a) t r s) : Asks visit x m (.ask q next) w r s
  | inside {sc : Scope} {body : Program} {next : Except Error Value → Program} {w t s : World}
      {r : Request} (ht : entering w sc = .ok t) (h : Asks visit x m body t r s)
      (hnext : ∀ e t, Fails (run visit x m (next (.error e))) t e) :
      Asks visit x m (.within sc body next) w r s
  | after {sc : Scope} {body : Program} {next : Except Error Value → Program} {w t s : World}
      {r : Request} {a : Except Error Value} (ha : inScope sc (run visit x m body) w = (a, t))
      (h : Asks visit x m (next a) t r s) : Asks visit x m (.within sc body next) w r s

theorem filename_visited? {r : Request} (h : x.visited? w r = some (y, v, s)) :
    y.filename = x.filename := by
  unfold visited? at h
  split at h
  · cases h
    rfl
  · cases h
    rfl
  · cases h

private theorem fails_visitTree {suite : Option ListLabel}
    (he : Fails (visit x (v.labelled w.journal.next).1) (w.labelling v) e) :
    Fails (visitTree visit x suite v) w e :=
  fails_bind (Act.label_run v w) (he.bind _)

theorem fails_answer {r : Request} (h : x.visited? w r = some (y, v, s))
    (he : Fails (visit y v) s e) : Fails (answer visit x m r) w e := by
  cases r with
  | visit extent suite tree =>
    cases h
    cases extent with
    | current => exact fails_visitTree he
    | recursive => exact fails_within (fails_visitTree he)
    | once => exact fails_within ((fails_visitTree he).bind _)
  | unquote suite tree =>
    cases h
    exact fails_bind (get_run w) (fails_within (fails_visitTree he))
  | _ => cases h

private theorem fails_inScope {sc : Scope} {act : Expansion Value} (h : entering w sc = .ok t)
    (he : Fails act t e) : Fails (inScope sc act) w e := by
  cases sc with
  | quote delta =>
    obtain ⟨levels, hlevels, h⟩ := except_bind_eq_ok.mp h
    cases h
    exact fails_bind (get_run w) (fails_lift_bind hlevels (fails_within he))
  | step delta =>
    obtain ⟨levels, hlevels, h⟩ := except_bind_eq_ok.mp h
    cases h
    exact fails_bind (get_run w) (fails_lift_bind hlevels (fails_within he))

theorem fails_run_of_asks {p : Program} {r : Request} (h : Asks visit x m p w r s)
    (he : Fails (answer visit x m r) s e) : Fails (run visit x m p) w e := by
  induction h with
  | now hnext => exact fails_attempt_bind he fun t => hnext e t
  | later ha h ih => exact fails_bind (by simp only [Act.attempt, ha]) (ih he)
  | inside ht h hnext ih => exact fails_attempt_bind (fails_inScope ht (ih he)) fun t => hnext e t
  | after ha h ih => exact fails_bind (by simp only [Act.attempt, ha]) (ih he)

/-! ## Nested uses -/

/-- Invocations within each other, outermost first, the first of them expanded in the state `w`.
The macro of each has a tree visited in which the next one is met, and lets failures through. The
macro of the last one fails with `e`. -/
inductive Chain (e : Error) : Expander → Nat → World → List Invocation → Prop
  | last {x : Expander} {depth : Nat} {w : World} {i : Invocation} {b : Binding}
      (hbound : x.bound? i.name w = (.ok (some b), w))
      (hfails : Fails (apply (visitAt depth) x b i.call) w e) : Chain e x depth w [i]
  | link {x y : Expander} {depth d : Nat} {w s t u : World} {i j : Invocation}
      {is : List Invocation} {m : Macro} {f : Call → Program} {r : Request} {v : Value}
      (hbound : x.bound? i.name w = (.ok (some (.transformer m)), w))
      (heager : m.transformer = .eager f)
      (hasks : Asks (visitAt depth) x m (f i.call) w r s)
      (hvisited : x.visited? s r = some (y, v, t)) (hmeets : y.Meets depth v t d j u)
      (hrest : Chain e y d u (j :: is)) : Chain e x depth w (i :: j :: is)

private theorem fails_apply {f : Call → Program} {call : Call} (heager : m.transformer = .eager f)
    (he : Fails (run visit x m (f call)) w e) : Fails (apply visit x (.transformer m) call) w e := by
  simp only [apply, heager]
  exact he.bind _

private theorem fails_expand {b : Binding} (hbound : x.bound? i.name w = (.ok (some b), w))
    (he : Fails (apply visit x b i.call) w e) :
    Fails (x.expand visit i) w (e.atUse (x.reportOf i)) := by
  have happly : apply visit x b i.call w = (.error e, (apply visit x b i.call w).2) :=
    Prod.ext he rfl
  rw [Fails, expand_of_apply_error hbound happly]
  rfl

theorem fails_expand_of_chain {is : List Invocation} (h : Chain e x depth w (i :: is))
    (horiginal : e.isNested = false) (hfile : x.filename.toList.head? ≠ some '\n') :
    Fails (x.expand (visitAt depth) i) w
      (.report (.useSite (telescope ((i :: is).map x.reportOf))) (some e)) := by
  generalize hall : i :: is = all at h
  induction h generalizing i is with
  | last hbound hfails =>
    cases hall
    rw [List.map_singleton, telescope_singleton, ← Error.atUse_of_not_isNested _ horiginal]
    exact fails_expand hbound hfails
  | @link x y depth d w s t u first j rest m f r v hbound heager hasks hvisited hmeets hrest ih =>
    cases hall
    have hname := filename_visited? hvisited
    have hnested := ih (by rwa [hname]) rfl
    rw [reportOf_congr hname] at hnested
    have hrun := fails_run_of_asks hasks (fails_answer hvisited
      (fails_visitAt_of_meets hmeets hnested))
    rw [List.map_cons, List.map_cons, ← atUse_telescope (toList_reportOf hfile j)]
    exact fails_expand hbound (fails_apply heager hrun)

/-- If the innermost of nested uses fails with an error that is not itself a report on a failed
use, the outermost use fails with one report. It says of each use where it is, outermost first, and
rests on the error itself. -/
theorem expand_telescopes {is : List Invocation} (h : Chain e x depth w (i :: is))
    (horiginal : e.isNested = false) (hfile : x.filename.toList.head? ≠ some '\n') :
    ∃ r t, x.expand (visitAt depth) i w = (.error r, t) ∧ r.kind = .expansionError ∧
      r.cause? = some e ∧ r.message? = some (telescope ((i :: is).map x.reportOf)) :=
  ⟨_, _, Prod.ext (fails_expand_of_chain h horiginal hfile) rfl, rfl, rfl, rfl⟩

/-- A macro that has its tree visited, as far as told, and gives back the outcome. -/
def visiting (name : String) (extent : Extent) : Macro :=
  ⟨.made 1, name, name, none, false, false,
    .eager fun call => .need (.visit extent none call.tree) .give⟩

/-- An expander with a macro that fails and two that have their trees visited. -/
def withVisiting : Expander :=
  ⟨[("m", .transformer failing), ("f", .transformer (visiting "f" .once)),
    ("g", .transformer (visiting "g" .current))], "example.py"⟩

/-- The invocation of a name with a tree, on the first line. -/
def useOf (name : String) (tree : Value) : Value :=
  .node .subscript
    [("value", .node .name [("id", .str name), ("ctx", .node .load [])]),
     ("slice", .node .index [("value", tree)]),
     ("ctx", .node .load []), ("lineno", .int 1), ("col_offset", .int 0)]

/-- What stands in the brackets of an expression. -/
def inBrackets (v : Value) : Value := ((v.attr? "slice").bind (·.attr? "value")).getD .none

def exprUse (name : String) (v : Value) : Invocation :=
  ⟨.str name, v.sourceOrExplain false, ⟨.expr, inBrackets v, none, .list [], none, v⟩⟩

/-- Three uses within each other, of which the innermost fails. -/
theorem expand_telescopes_thrice :
    let e := Error.report (.scripted .valueError (some "no")) none
    let tree := useOf "g" (useOf "m" (.node .name [("id", .str "x"), ("ctx", .node .load [])]))
    let i := exprUse "f" (useOf "f" tree)
    let j := exprUse "g" (tree.labelled 0).1
    let k := exprUse "m" (inBrackets (tree.labelled 0).1)
    let w := World.start (.ofQueue [])
    Chain e withVisiting 3 w [i, j, k] ∧
      ∃ r t, withVisiting.expand (visitAt 3) i w = (.error r, t) ∧ r.kind = .expansionError ∧
        r.cause? = some e ∧ r.message? = some
          ("\nexample.py:1: f[g[m[x]]]\nwhile expanding expr macro invocation for 'f'" ++
            "\nexample.py:1: g[m[x]]\nwhile expanding expr macro invocation for 'g'" ++
            "\nexample.py:1: m[x]\nwhile expanding expr macro invocation for 'm'") := by
  intro e tree i j k w
  have hchain : Chain e withVisiting 3 w [i, j, k] := by
    refine .link rfl rfl (.now fun _ _ => rfl) rfl (.here rfl (.expr rfl rfl rfl rfl rfl rfl)) ?_
    refine .link rfl rfl (.now fun _ _ => rfl) rfl (.here rfl (.expr rfl rfl rfl rfl rfl rfl)) ?_
    exact .last rfl rfl
  have htext : telescope ([i, j, k].map withVisiting.reportOf) =
      "\nexample.py:1: f[g[m[x]]]\nwhile expanding expr macro invocation for 'f'" ++
        "\nexample.py:1: g[m[x]]\nwhile expanding expr macro invocation for 'g'" ++
        "\nexample.py:1: m[x]\nwhile expanding expr macro invocation for 'm'" := by
    decide +kernel
  refine ⟨hchain, ?_⟩
  rw [← htext]
  exact expand_telescopes hchain (by decide) (by decide +kernel)

end Expander

end TreeMacros
