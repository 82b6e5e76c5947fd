import TreeMacros.Proofs.Collecting
import TreeMacros.Proofs.Transparency

/-!
# Expanding until no macros are left

A visit expands what is an invocation when the visit comes to it. Something is left to expand
afterwards if a tree becomes an invocation only later: when its children have been expanded, or
when its name gets bound. The main statement is that nothing else is ever left.
-/

namespace TreeMacros

open World (Kept)
open Value hiding none set
open Act (bind_eq_ok bind_ok get_run lift_bind_eq_ok lift_bind_ok pure_run)
open Act (Ensures ensures_pure ensures_throw Keeps)

variable {visit : Visit} {ys : List Value} {name : String}

namespace Value

theorem isPiece_of_placeContexts {v r : Value} {c : Context} {w t : World}
    (h : (v.placeContexts c : Expansion Value) w = (.ok r, t)) : r.isPiece := by
  cases v with
  | node k as =>
    rw [placeContexts, fold_node] at h
    split at h
    all_goals
      obtain ⟨bs, m, -, h⟩ := bind_eq_ok.mp h
      dsimp only at h
      cases hreq : (node k bs).requireAttrs ((Context.ofChildren k).map (·.1)) with
      | error e =>
        rw [hreq] at h
        cases h
      | ok =>
        rw [hreq] at h
        obtain ⟨cs, n, -, h⟩ := bind_eq_ok.mp h
        cases h
        rfl
  | list xs =>
    rw [placeContexts, fold_list] at h
    obtain ⟨ys, m, -, h⟩ := bind_eq_ok.mp h
    cases h
    exact isPiece_suite ys
  | _ => cases h

end Value

namespace World.Kept

variable {x : Expander} {w m t : World}

theorem known?_between (h : Kept w m) (h' : Kept m t) (hw : w.Tidy)
    (hknown : x.known? t = x.known? w) : x.known? m = x.known? w := by
  funext name
  cases hname : x.known? w name with
  | some b => exact Expander.known?_of_kept h hw hname
  | none =>
    by_contra hm
    obtain ⟨b, hb⟩ := Option.ne_none_iff_exists'.mp hm
    have ht := Expander.known?_of_kept h' (h.tidy hw) hb
    rw [hknown, hname] at ht
    cases ht

end World.Kept

namespace Expander

variable {x : Expander} {s w t : World} {v r : Value}

/-- The state is tidy, and the same macros can be invoked in it as in `s`. -/
structure Alike (x : Expander) (s w : World) : Prop where
  tidy : w.Tidy
  known : x.known? w = x.known? s

/-- A visit until no macros are left turns `v` and the state `w` into `r` and `t`, however deep
expansions may go. -/
def ExpandsTo (x : Expander) (w : World) (v r : Value) (t : World) : Prop :=
  ∃ depth, visitTo (visitAt depth) x .recursive none v w = (.ok r, t)

/-- Visits leave nothing to be collected. -/
def Exhausts (x : Expander) (s : World) : Prop :=
  ∀ w v r t, x.Alike s w → x.ExpandsTo w v r t → (Collection.collect x r ⟨t, []⟩).2.found = []

/-- Visits make no more names known. -/
def BindsNothing (x : Expander) (s : World) : Prop :=
  ∀ w v r t, x.Alike s w → x.ExpandsTo w v r t → x.known? t = x.known? s

/-- Visits turn nothing into an invocation that is none. -/
def KeepsOthers (x : Expander) (s : World) : Prop :=
  ∀ w v r t, x.Alike s w → x.ExpandsTo w v r t → x.isInvocation w v = false →
    x.isInvocation t r = false

theorem visitTo_recursive_run (visit : Visit) (x : Expander) (v : Value) (w : World) :
    visitTo visit x .recursive none v w =
      let out := visit x (v.labelled w.journal.next).1 ({ w with recursive := true }.labelling v)
      (out.1, { out.2 with recursive := w.recursive }) := by
  simp only [visitTo, Expansion.inMode, Act.within]
  rw [visitTree_none_run]
  rfl

theorem expandsTo_iff : x.ExpandsTo w v r t ↔ ∃ depth t',
    visitAt depth x (v.labelled w.journal.next).1 ({ w with recursive := true }.labelling v) =
      (.ok r, t') ∧ t = { t' with recursive := w.recursive } := by
  refine exists_congr fun depth => ?_
  rw [visitTo_recursive_run]
  generalize visitAt depth x _ _ = out
  constructor
  · intro h
    obtain ⟨hr, ht⟩ := Prod.mk.inj h
    exact ⟨out.2, Prod.ext hr rfl, ht.symm⟩
  · rintro ⟨t', rfl, rfl⟩
    rfl

theorem expandsTo_of_visitAt {depth : Nat} (hl : v.hasLabels) (hrec : w.recursive)
    (h : visitAt depth x v w = (.ok r, t)) : x.ExpandsTo w v r t := by
  have hkept : Kept w t := (keeps_visitAt depth x v).of_run h
  have hw : { w with recursive := true } = w := by rw [← hrec]
  refine expandsTo_iff.mpr ⟨depth, t, ?_, by rw [← hkept.recursive]⟩
  rw [hw, World.labelling_of_hasLabels hl, labelled_of_hasLabels hl, h]

/-! ## How a visit to a node goes on -/

/-- The state is another, but the same macros can be invoked, and nothing that is bound is lost. -/
structure Still (x : Expander) (w t : World) : Prop where
  kept : Kept w t
  known : x.known? t = x.known? w

theorem Heeds.still {α : Type} {act : Expansion α} (h : x.Heeds act) (hk : Keeps Kept act)
    {a : Except Error α} (hrun : act w = (a, t)) : x.Still w t := by
  have hknown := (h w w rfl).2
  rw [hrun] at hknown
  exact ⟨hk.of_run hrun, hknown⟩

theorem expand_cases (hvisit : ∀ x v, Keeps Kept (visit x v)) {i : Invocation}
    (h : x.expand visit i w = (.ok r, t)) :
    ∃ m, Kept w m ∧ (r = .none ∧ t = m ∨ ∃ u, u.hasLabels ∧ u.isPiece ∧
      if m.recursive then visit x u m = (.ok r, t) else r = u ∧ t = m) := by
  obtain ⟨b, w₁, hb, h⟩ := bind_eq_ok.mp h
  have hkept₁ : Kept w w₁ := (keeps_bound? x i.name).of_run hb
  rcases b with _ | b
  · cases h
  · obtain ⟨a, w₂, ha, h⟩ := bind_eq_ok.mp h
    have hattempt : Keeps Kept (Act.attempt (apply visit x b i.call)) :=
      keeps_apply hvisit x b i.call
    have hkept₂ := hattempt.of_run ha
    rcases a with e | a
    · cases h
    · obtain ⟨v, w₃, hv, h⟩ := bind_eq_ok.mp h
      have hkept₃ : Kept w₂ w₃ := (keeps_takeOutput hvisit x _ a).of_run hv
      have hkept : Kept w w₃ := IsTrans.trans _ _ _ (IsTrans.trans _ _ _ hkept₁ hkept₂) hkept₃
      unfold settle at h
      split at h
      · cases h
        exact ⟨_, hkept, .inl ⟨rfl, rfl⟩⟩
      · obtain ⟨located, w₄, hlocated, h⟩ := bind_eq_ok.mp h
        obtain ⟨placed, w₅, hplaced, h⟩ := bind_eq_ok.mp h
        obtain ⟨u, w₆, hu, h⟩ := bind_eq_ok.mp h
        have hkept₄ : Kept w₃ w₄ := (keeps_fixLocations _ _ _).of_run hlocated
        have hkept₅ : Kept w₄ w₅ := (keeps_placeContexts _ _).of_run hplaced
        have hkept₆ : Kept w₅ w₆ := (keeps_label _).of_run hu
        refine ⟨w₆, IsTrans.trans _ _ _ (IsTrans.trans _ _ _ (IsTrans.trans _ _ _ hkept hkept₄)
          hkept₅) hkept₆, .inr ⟨u, ?_, ?_, ?_⟩⟩
        · rw [Act.label_run] at hu
          cases hu
          exact hasLabels_labelled _ _
        · rw [Act.label_run] at hu
          cases hu
          rw [isPiece_labelled]
          exact isPiece_of_placeContexts hplaced
        · rw [bind_ok (get_run w₆)] at h
          split at h
          next hrec => rw [if_pos hrec]; exact h
          next hrec =>
            rw [if_neg hrec]
            cases h
            exact ⟨rfl, rfl⟩

theorem any_of_popFirst {ds : List (Value × Bool)} (h : popFirst ds = none) :
    ds.any (·.2) = false := by
  induction ds with
  | nil => rfl
  | cons d ds ih =>
    obtain ⟨v, b⟩ := d
    cases b with
    | true => cases h
    | false =>
      rw [popFirst, Option.map_eq_none_iff] at h
      simpa using ih h

theorem any_of_popLast {ds : List (Value × Bool)} (h : popLast ds = none) :
    ds.any (·.2) = false := by
  rw [popLast, Option.map_eq_none_iff] at h
  simpa using any_of_popFirst h

theorem popFirst_of_any {ds : List (Value × Bool)} (h : ds.any (·.2) = false) :
    popFirst ds = none := by
  induction ds with
  | nil => rfl
  | cons d ds ih =>
    obtain ⟨v, b⟩ := d
    rw [List.any_cons, Bool.or_eq_false_iff] at h
    obtain ⟨rfl, hrest⟩ : b = false ∧ ds.any (·.2) = false := h
    rw [popFirst, ih hrest]
    rfl

theorem popLast_of_any {ds : List (Value × Bool)} (h : ds.any (·.2) = false) :
    popLast ds = none := by
  rw [popLast, popFirst_of_any (by rwa [List.any_reverse])]
  rfl

theorem mem_of_popFirst {ds : List (Value × Bool)} {rest : List Value}
    (h : popFirst ds = some (v, rest)) :
    (v, true) ∈ ds := by
  induction ds generalizing rest with
  | nil => cases h
  | cons d ds ih =>
    obtain ⟨u, b⟩ := d
    cases b with
    | true =>
      cases h
      simp
    | false =>
      rw [popFirst, Option.map_eq_some_iff] at h
      obtain ⟨⟨y, ys⟩, hy, h⟩ := h
      cases h
      exact List.mem_cons_of_mem _ (ih hy)

theorem mem_of_popLast {ds : List (Value × Bool)} {rest : List Value}
    (h : popLast ds = some (v, rest)) :
    (v, true) ∈ ds := by
  rw [popLast, Option.map_eq_some_iff] at h
  obtain ⟨⟨y, ys⟩, hy, h⟩ := h
  cases h
  simpa using mem_of_popFirst hy

/-- What a macro has been taken out of, or off: a block without the macro, or a decorator. -/
inductive TakenFrom (x : Expander) (k : Kind) (as : Attrs) : Value → Prop
  | block {rest : List Value} {inner : Value} {m n : World}
      (hrun : ((node k as).refill "items" rest : Expansion Value) m = (.ok inner, n)) :
      TakenFrom x k as inner
  | decorator {decorators item : Value} {ds : List (Value × Bool)} {m n : World}
      (hk : itemsField? k = some ("decorator_list", .decorator))
      (hdecorators : (node k as).attr "decorator_list" = .ok decorators)
      (hds : x.detect .decorator decorators m = (.ok ds, n)) (hitem : (item, true) ∈ ds)
      (hremovable : requireRemovable decorators = .ok ()) : TakenFrom x k as item

/-- What comes of a visit to a node: it stays, the visit goes on to its children, or it is expanded. -/
inductive Walked (x : Expander) (expand : Invocation → Expansion Value) (visit : Visit)
    (children : Expansion Value) (k : Kind) (as : Attrs) (w : World) : Value → World → Prop
  | stays {t : World} (h : x.isIdle w = true ∨ k = .done ∨
      k = .name ∧ x.isInvocation w (.node k as) = false) :
      Walked x expand visit children k as w (.node k as) t
  | onward {m : World} {r : Value} {t : World} (hinvoked : x.isInvocation w (.node k as) = false)
      (hm : x.Still w m) (hrun : children m = (.ok r, t)) :
      Walked x expand visit children k as w r t
  | brackets {i : Invocation} {m : World} {r : Value} {t : World} (hk : k = .subscript)
      (hi : i.call.invocation = .node k as) (hm : Kept w m) (hrun : expand i m = (.ok r, t)) :
      Walked x expand visit children k as w r t
  | taken {own : String} {i : Invocation} {m n : World} {u inner name r : Value} {t : World}
      (hk : k ∈ [.withStmt, .functionDef, .classDef])
      (hi : i.call.invocation = (node k as).shallowCopy own) (hm : Kept w m)
      (hu : expand i m = (.ok u, n)) (hinner : x.TakenFrom k as inner)
      (hrun : traced u inner name n = (.ok r, t)) : Walked x expand visit children k as w r t
  | named {i : Invocation} {m n : World} {u r : Value} {t : World} (hk : k = .name)
      (hi : i.call.invocation = .node k as) (hm : Kept w m)
      (hu : Expansion.inMode false (expand i) m = (.ok u, n))
      (hrun : r = .none ∨ u.isNone = false ∧ (markDone u n = (.ok r, t) ∨
        if n.recursive then visit x u n = (.ok r, t) else r = u ∧ t = n)) :
      Walked x expand visit children k as w r t

variable {expand : Invocation → Expansion Value} {children : Expansion Value} {k : Kind} {as : Attrs}

/-- A block that invokes a macro: once the item has been taken out, the invocation is expanded. -/
theorem visitWith_run {items item header name args tree inner target : Value}
    {ds : List (Value × Bool)} {rest : List Value} {m s : World} (hitems : v.attr "items" = .ok items)
    (hdetect : x.detect .block items w = (.ok ds, m)) (hpop : popFirst ds = some (item, rest))
    (hheader : item.attr "context_expr" = .ok header)
    (hcandidate : candidate header = .ok (name, args))
    (hremovable : requireRemovable items = .ok ())
    (hinner : (v.refill "items" rest : Expansion Value) m = (.ok inner, s))
    (htarget : item.attr "optional_vars" = .ok target)
    (htree : (if rest.isEmpty then v.attr "body" else .ok (.list [inner])) = .ok tree) :
    visitWith x expand v children w = (expand ⟨name, v.sourceOrExplain false,
      ⟨.block, tree, if rest.isEmpty then v.listLabel? "body" else none, args, some target,
        v.shallowCopy "items"⟩⟩ >>= fun r => traced r inner name) s := by
  unfold visitWith
  rw [lift_bind_ok hitems, bind_ok hdetect]
  simp only [hpop]
  rw [lift_bind_ok hheader, lift_bind_ok hcandidate]
  dsimp only
  rw [lift_bind_ok hremovable, bind_ok hinner, lift_bind_ok htarget]
  split at htree
  next hrest =>
    simp only [if_pos hrest]
    rw [lift_bind_ok htree]
    rfl
  next hrest =>
    cases htree
    simp only [if_neg hrest]
    rfl

theorem visitDecorated_run {decorators item name args tree : Value} {ds : List (Value × Bool)}
    {rest : List Value} {m s : World}
    (hdecorators : v.attr "decorator_list" = .ok decorators)
    (hdetect : x.detect .decorator decorators w = (.ok ds, m))
    (hpop : popLast ds = some (item, rest)) (hcandidate : candidate item = .ok (name, args))
    (hremovable : requireRemovable decorators = .ok ())
    (htree : (v.refill "decorator_list" rest : Expansion Value) m = (.ok tree, s)) :
    visitDecorated x expand v children w = (expand ⟨name, v.sourceOrExplain false,
      ⟨.decorator, tree, none, args, none, v.shallowCopy "decorator_list"⟩⟩ >>=
        fun r => traced r item name) s := by
  unfold visitDecorated
  rw [lift_bind_ok hdecorators, bind_ok hdetect]
  simp only [hpop]
  rw [lift_bind_ok hcandidate]
  dsimp only
  rw [lift_bind_ok hremovable, bind_ok htree]

theorem visitSubscript_cases
    (h : visitSubscript x expand (.node .subscript as) children w = (.ok r, t)) :
    x.Walked expand visit children .subscript as w r t := by
  obtain ⟨u, hu, h⟩ := lift_bind_eq_ok.mp h
  obtain ⟨c, hc, h⟩ := lift_bind_eq_ok.mp h
  rcases c with _ | ⟨name, args⟩
  · refine .onward ?_ ⟨refl w, rfl⟩ h
    refine isInvocation_of_run (t := w) ?_
    change (liftM ((node .subscript as).attr "value") >>= _ : Expansion Bool) w = _
    rw [lift_bind_ok hu, lift_bind_ok hc]
    rfl
  · obtain ⟨b, m, hb, h⟩ := bind_eq_ok.mp h
    have hstill := (heeds_isCall x name args .expr).still (keeps_isCall x name args .expr) hb
    cases b with
    | false => exact .onward (isInvocation_subscript hu hc hb) hstill h
    | true =>
      obtain ⟨slice, -, h⟩ := lift_bind_eq_ok.mp h
      obtain ⟨tree, -, h⟩ := lift_bind_eq_ok.mp h
      exact .brackets rfl rfl hstill.kept h

theorem visitWith_cases (h : visitWith x expand (.node .withStmt as) children w = (.ok r, t)) :
    x.Walked expand visit children .withStmt as w r t := by
  obtain ⟨items, hitems, h⟩ := lift_bind_eq_ok.mp h
  obtain ⟨ds, m, hds, h⟩ := bind_eq_ok.mp h
  have hstill := (heeds_detect x .block items).still (keeps_detect x .block items) hds
  cases hpop : popFirst ds with
  | none =>
    simp only [hpop] at h
    exact .onward (by rw [isInvocation_items rfl hitems hds, any_of_popFirst hpop]) hstill h
  | some p =>
    obtain ⟨item, rest⟩ := p
    simp only [hpop] at h
    obtain ⟨header, -, h⟩ := lift_bind_eq_ok.mp h
    obtain ⟨⟨name, args⟩, -, h⟩ := lift_bind_eq_ok.mp h
    obtain ⟨-, -, h⟩ := lift_bind_eq_ok.mp h
    obtain ⟨inner, n, hinner, h⟩ := bind_eq_ok.mp h
    have hkept : Kept w n :=
      IsTrans.trans _ _ _ hstill.kept ((keeps_valueRefill _ _ _).of_run hinner)
    obtain ⟨target, -, h⟩ := lift_bind_eq_ok.mp h
    split at h
    · obtain ⟨body, -, h⟩ := lift_bind_eq_ok.mp h
      rw [bind_ok (pure_run _ _)] at h
      obtain ⟨u, o, hu, h⟩ := bind_eq_ok.mp h
      exact .taken (by decide) rfl hkept hu (.block hinner) h
    · rw [bind_ok (pure_run _ _)] at h
      obtain ⟨u, o, hu, h⟩ := bind_eq_ok.mp h
      exact .taken (by decide) rfl hkept hu (.block hinner) h

theorem visitDecorated_cases (hk : k ∈ [.withStmt, .functionDef, .classDef])
    (hfield : itemsField? k = some ("decorator_list", .decorator))
    (h : visitDecorated x expand (.node k as) children w = (.ok r, t)) :
    x.Walked expand visit children k as w r t := by
  obtain ⟨items, hitems, h⟩ := lift_bind_eq_ok.mp h
  obtain ⟨ds, m, hds, h⟩ := bind_eq_ok.mp h
  have hstill := (heeds_detect x .decorator items).still (keeps_detect x .decorator items) hds
  cases hpop : popLast ds with
  | none =>
    simp only [hpop] at h
    exact .onward (by rw [isInvocation_items hfield hitems hds, any_of_popLast hpop]) hstill h
  | some p =>
    obtain ⟨item, rest⟩ := p
    simp only [hpop] at h
    obtain ⟨⟨name, args⟩, -, h⟩ := lift_bind_eq_ok.mp h
    obtain ⟨_, hremovable, h⟩ := lift_bind_eq_ok.mp h
    obtain ⟨inner, n, hinner, h⟩ := bind_eq_ok.mp h
    have hkept : Kept w n :=
      IsTrans.trans _ _ _ hstill.kept ((keeps_valueRefill _ _ _).of_run hinner)
    obtain ⟨u, o, hu, h⟩ := bind_eq_ok.mp h
    exact .taken hk rfl hkept hu (.decorator hfield hitems hds (mem_of_popLast hpop) hremovable) h

theorem visitName_cases (h : visitName x expand visit (.node .name as) w = (.ok r, t)) :
    x.Walked expand visit children .name as w r t := by
  obtain ⟨name, hname, h⟩ := lift_bind_eq_ok.mp h
  obtain ⟨b, m, hb, h⟩ := bind_eq_ok.mp h
  cases b with
  | false =>
    cases h
    exact .stays (.inr (.inr ⟨rfl, isInvocation_name hname hb⟩))
  | true =>
    obtain ⟨u, n, hu, h⟩ := bind_eq_ok.mp h
    refine .named rfl rfl ((keeps_isCall x name .none .name).of_run hb) hu ?_
    have hend (unchanged : Bool) (h : (if unchanged then markDone u else get >>= fun s =>
        if s.recursive then visit x u else pure u) n = (.ok r, t)) :
        markDone u n = (.ok r, t) ∨
          if n.recursive then visit x u n = (.ok r, t) else r = u ∧ t = n := by
      split at h
      · exact .inl h
      · rw [bind_ok (get_run n)] at h
        refine .inr ?_
        split
        next hrec => rwa [if_pos hrec] at h
        next hrec =>
          rw [if_neg hrec] at h
          cases h
          exact ⟨rfl, rfl⟩
    split at h
    · cases h
      exact .inl rfl
    next hnone =>
      refine .inr ⟨Bool.eq_false_iff.mpr hnone, ?_⟩
      split at h
      · obtain ⟨id, -, h⟩ := lift_bind_eq_ok.mp h
        rw [bind_ok (pure_run _ _)] at h
        exact hend _ h
      · rw [bind_ok (pure_run _ _)] at h
        exact hend _ h

theorem walk_node_cases (h : x.walk expand visit (.node k as) w = (.ok r, t)) :
    x.Walked expand visit (visitChildren k as (foldAttrs (visitNode x expand visit)
      (fun v items _ => visitRest x v items) as)) k as w r t := by
  rw [walk, fold_node, visitNode, bind_ok (get_run w)] at h
  split at h
  next hstop =>
    cases h
    rcases Bool.or_eq_true_iff.mp hstop with hidle | hdone
    · exact .stays (.inl hidle)
    · exact .stays (.inr (.inl (by simpa using hdone)))
  next =>
    dsimp only at h
    split at h
    · exact visitSubscript_cases h
    · exact visitWith_cases h
    · exact visitDecorated_cases (by decide) rfl h
    · exact visitDecorated_cases (by decide) rfl h
    · exact visitName_cases h
    · obtain ⟨value, -, h⟩ := lift_bind_eq_ok.mp h
      exact .onward rfl ⟨refl w, rfl⟩ h
    next hsubscript hwith hfunction hclass hname _ =>
      exact .onward (isInvocation_of_notMem
        (by simpa using ⟨hsubscript, hwith, hfunction, hclass, hname⟩)) ⟨refl w, rfl⟩ h

theorem inMode_expand_cases (hvisit : ∀ x v, Keeps Kept (visit x v)) {i : Invocation}
    (h : Expansion.inMode false (x.expand visit i) w = (.ok r, t)) :
    Kept w t ∧ (r = .none ∨ r.hasLabels ∧ r.isPiece) := by
  refine ⟨(keeps_inMode false (keeps_expand hvisit x i)).of_run h, ?_⟩
  have hout : (x.expand visit i { w with recursive := false }).1 = .ok r := congrArg Prod.fst h
  have hrun : x.expand visit i { w with recursive := false } =
      (.ok r, (x.expand visit i { w with recursive := false }).2) := Prod.ext hout rfl
  obtain ⟨m, hkept, ⟨hr, -⟩ | ⟨u, hl, hp, hu⟩⟩ := expand_cases hvisit hrun
  · exact .inl hr
  · rw [if_neg (by simp [hkept.recursive])] at hu
    obtain ⟨rfl, -⟩ := hu
    exact .inr ⟨hl, hp⟩

/-- What is no node stays where no macros are in sight. Else it is nothing, or a list whose
elements are visited. -/
theorem walk_rest_cases (hn : v.isNode = false) (h : x.walk expand visit v w = (.ok r, t)) :
    (x.isIdle w ∧ r = v ∧ t = w) ∨ (r = .none ∧ t = w) ∨
      ∃ xs rs, v = .list xs ∧ xs.mapM (x.walk expand visit) w = (.ok rs, t) ∧ r = suite rs := by
  rw [walk_rest expand visit hn] at h
  unfold visitRest at h
  rw [bind_ok (get_run w)] at h
  split at h
  next hidle =>
    cases h
    exact .inl ⟨hidle, rfl, rfl⟩
  next hidle =>
    cases v with
    | none =>
      cases h
      exact .inr (.inl ⟨rfl, rfl⟩)
    | list xs =>
      simp only [foldPart, foldItems_eq] at h
      obtain ⟨rs, m, hrs, h⟩ := bind_eq_ok.mp h
      cases h
      rw [List.mapM_map] at hrs
      exact .inr (.inr ⟨xs, rs, rfl, hrs, rfl⟩)
    | _ => cases h

/-! ## What visits leave -/

/-- The tree is labelled and has nothing in it that is left to expand. -/
structure Settled (x : Expander) (s : World) (r : Value) : Prop where
  hasLabels : r.hasLabels = true
  free : x.isFree s r = true

theorem settled_list (h : ∀ y ∈ ys, x.Settled s y) : x.Settled s (.list ys) :=
  ⟨hasLabels_list.mpr fun y hy => (h y hy).hasLabels,
    isFree_list.mpr fun y hy => (h y hy).free⟩

theorem Settled.of_mem (h : x.Settled s (.list ys)) {y : Value} (hy : y ∈ ys) : x.Settled s y :=
  ⟨hasLabels_list.mp h.hasLabels y hy, isFree_list.mp h.free y hy⟩

theorem Settled.of_mem_elements (h : x.Settled s r) (hp : r.isPiece)
    (hys : r.elements? = some ys) {y : Value} (hy : y ∈ ys) :
    y.hasLabels ∧ (y.isNode → x.Settled s y ∧ y.isPiece) := by
  cases r with
  | list zs =>
    cases hys
    have hy := h.of_mem hy
    exact ⟨hy.hasLabels, fun hn => ⟨hy, by simp [isPiece, hn]⟩⟩
  | none | node => cases hys
  | _ => cases hp

theorem settled_none : x.Settled s .none := ⟨rfl, rfl⟩

theorem spreads_settled : Spreads (x.Settled s) :=
  ⟨settled_none, fun _ => ⟨fun h _ => h.of_mem, settled_list⟩⟩

theorem settled_of_label_done {as : Attrs}
    (h : (Act.label (.node .done as) : Expansion Value) w = (.ok r, t)) :
    x.Settled s r ∧ r.isPiece := by
  rw [Act.label_run] at h
  obtain rfl : ((node .done as).labelled w.journal.next).1 = r :=
    Except.ok.inj (congrArg Prod.fst h)
  refine ⟨⟨hasLabels_labelled _ _, ?_⟩, isPiece_labelled _ _⟩
  rw [labelled_node]
  split <;> exact isFree_done x s _

theorem done_of_coverage {node name code : Value} (h : coverage node name = .ok code) :
    ∃ as, code = .node .done as := by
  unfold coverage at h
  cases hline : node.attr "lineno" with
  | error e =>
    rw [hline] at h
    cases h
  | ok line =>
    rw [hline] at h
    cases h
    exact ⟨_, rfl⟩

theorem traced_eq (v node name : Value) :
    traced v node name = if !node.hasAttr "lineno" && !node.hasAttr "col_offset" then pure v
      else (liftM (coverage node name) : Expansion Value) >>= fun code =>
        Act.label code >>= fun c => pure (.list (c :: v.spliced)) := by
  cases v <;> rfl

theorem settled_of_traced {u node name : Value} (hu : x.Settled s u ∧ u.isPiece)
    (h : traced u node name w = (.ok r, t)) : x.Settled s r ∧ r.isPiece := by
  rw [traced_eq] at h
  split at h
  · cases h
    exact hu
  · obtain ⟨code, hcode, h⟩ := lift_bind_eq_ok.mp h
    obtain ⟨c, m, hc, h⟩ := bind_eq_ok.mp h
    cases h
    obtain ⟨as, rfl⟩ := done_of_coverage hcode
    refine ⟨settled_list fun y hy => ?_, rfl⟩
    rcases List.mem_cons.mp hy with rfl | hy
    · exact (settled_of_label_done hc).1
    · exact spreads_settled.spliced_iff.mpr hu.1 y hy

/-! ## Visits that exhaust -/

private theorem isFree_of_isIdle (hw : x.Alike s w) (h : x.isIdle w) (v : Value) :
    x.isFree s v := by
  rw [← isFree_congr hw.known]
  exact (knowsNothing_of_isIdle h).isFree v

theorem ensures_visitAt (hB : x.BindsNothing s) (hK : x.KeepsOthers s) (depth : Nat) (v : Value)
    (hl : v.hasLabels) :
    Ensures (fun w => x.Alike s w ∧ w.recursive) (visitAt depth x v) fun r =>
      x.Settled s r ∧ (v.isPiece → r.isPiece) := by
  induction depth generalizing v with
  | zero => exact ensures_throw _
  | succ depth ihdepth =>
    induction v using walkInduction with
    | node k as ih =>
      rintro w r t ⟨hw, hrec⟩ h
      have hexpands := expandsTo_of_visitAt hl hrec h
      have hkept : Kept w t := (keeps_visitAt _ x _).of_run h
      have hknown := hB w _ r t hw hexpands
      refine ⟨⟨⟨hkept.tidy hw.tidy, hknown⟩, hkept.recursive.trans hrec⟩, ?_⟩
      suffices hr : x.Settled s r ∧ r.isPiece from ⟨hr.1, fun _ => hr.2⟩
      -- Between the states before and after, the same macros can be invoked.
      have hbetween {m : World} (h : Kept w m) (h' : Kept m t) :
          x.Alike s m ∧ m.recursive :=
        ⟨⟨h.tidy hw.tidy, (h.known?_between h' hw.tidy (hknown.trans hw.known.symm)).trans hw.known⟩,
          h.recursive.trans hrec⟩
      have hvisited {u r : Value} {m n : World} (hl : u.hasLabels) (hp : u.isPiece)
          (hm : Kept w m) (hn : Kept n t) (hu : visitAt depth x u m = (.ok r, n)) :
          x.Settled s r ∧ r.isPiece := by
        have hmt : Kept m t :=
          IsTrans.trans _ _ _ ((keeps_visitAt depth x u).of_run hu) hn
        have hr := (ihdepth u hl m r n (hbetween hm hmt) hu).2
        exact ⟨hr.1, hr.2 hp⟩
      have hexpanded {i : Invocation} {m n : World} {u : Value} (hm : Kept w m)
          (hn : Kept n t) (hu : x.expand (visitAt depth) i m = (.ok u, n)) :
          x.Settled s u ∧ u.isPiece := by
        obtain ⟨o, ho, ⟨rfl, -⟩ | ⟨v, hl, hp, hv⟩⟩ := expand_cases (keeps_visitAt depth) hu
        · exact ⟨settled_none, rfl⟩
        · have hwo : Kept w o := IsTrans.trans _ _ _ hm ho
          rw [if_pos (hwo.recursive.trans hrec)] at hv
          exact hvisited hl hp hwo hn hv
      have hrebuilt {m : World} (hinv : x.isInvocation w (.node k as) = false) (hm : x.Still w m)
          (hc : visitChildren k as (foldAttrs (visitNode x (x.expand (visitAt depth))
            (visitAt depth)) (fun v items _ => visitRest x v items) as) m = (.ok r, t)) :
          x.Settled s r ∧ r.isPiece := by
        have hbelow : ∀ u ∈ children k as,
            Ensures (fun w => x.Alike s w ∧ w.recursive) (visitAt (depth + 1) x u) fun r =>
              x.Settled s r ∧ r.isPiece := by
          intro u hu
          have hp : u.isPiece := by
            simp [isPiece, isNode_of_mem_children hu]
          exact (ih u hu (hasLabels_of_mem_children hl hu)).mono fun r hr =>
            ⟨hr.1, hr.2 hp⟩
        have hm' : x.Alike s m ∧ m.recursive :=
          ⟨⟨hm.kept.tidy hw.tidy, hm.known.trans hw.known⟩, hm.kept.recursive.trans hrec⟩
        obtain ⟨-, bs, rfl, hbl, hgood⟩ := ensures_rebuild
          (fun w j hw => ⟨⟨hw.1.tidy, hw.1.known⟩, hw.2⟩) (fun v hv => hv.1.hasLabels)
          (fun v xs hv hxs u hu => hv.1.of_mem_elements hv.2 hxs hu) hl hbelow m r t hm' hc
        refine ⟨⟨hbl, isFree_node.mpr ⟨?_, fun _ _ c hc => (hgood c hc).1.free⟩⟩, rfl⟩
        rw [← isInvocation_congr hknown]
        exact hK w _ _ t hw hexpands hinv
      cases walk_node_cases h with
      | stays hstays =>
        refine ⟨⟨hl, ?_⟩, rfl⟩
        rcases hstays with hidle | rfl | ⟨rfl, hinv⟩
        · exact isFree_of_isIdle hw hidle _
        · exact isFree_done x s as
        · refine isFree_node.mpr ⟨?_, fun _ hn => absurd rfl hn⟩
          rw [← isInvocation_congr hw.known, hinv]
      | onward hinv hm hc => exact hrebuilt hinv hm hc
      | brackets _ _ hm hu => exact hexpanded hm (refl _) hu
      | taken _ _ hm hu _ hr =>
        exact settled_of_traced (hexpanded hm ((keeps_traced _ _ _).of_run hr) hu) hr
      | named _ _ hm hu hr =>
        obtain ⟨hkept', hcases⟩ := inMode_expand_cases (keeps_visitAt depth) hu
        rcases hr with rfl | ⟨hnone, hr | hr⟩
        · exact ⟨settled_none, rfl⟩
        · exact settled_of_label_done hr
        · have hn := IsTrans.trans _ _ _ hm hkept'
          rw [if_pos (hn.recursive.trans hrec)] at hr
          rcases hcases with rfl | ⟨hl, hp⟩
          · cases hnone
          · exact hvisited hl hp hn (refl t) hr
    | rest v hn ih =>
      rintro w r t ⟨hw, hrec⟩ h
      obtain ⟨hidle, rfl, rfl⟩ | ⟨rfl, rfl⟩ | ⟨xs, rs, rfl, hrs, rfl⟩ := walk_rest_cases hn h
      · exact ⟨⟨hw, hrec⟩, ⟨hl, isFree_of_isIdle hw hidle _⟩, fun h => h⟩
      · exact ⟨⟨hw, hrec⟩, settled_none, fun _ => rfl⟩
      · have hmap := Ensures.mapM (fun u hu => (ih u hu (hasLabels_list.mp hl u hu)).mono
          fun r hr => hr.1) w rs t ⟨hw, hrec⟩ hrs
        exact ⟨hmap.1, spreads_settled.suite_iff.mpr hmap.2, fun _ => isPiece_suite rs⟩

/-! ## Visits that do not -/

private def probeName (name : String) : Value :=
  .node .name [("id", .str name), (Attrs.labelName, .int 0)]

/-- A labelled tree that becomes an invocation when its name becomes known. -/
def probe (name : String) : Value :=
  .node .subscript [("value", probeName name), (Attrs.labelName, .int 0)]

theorem hasLabels_probe (name : String) : (probe name).hasLabels := rfl

private theorem candidate_probeName (name : String) :
    (probeName name).candidate? = .ok (some (.str name, .list [])) := rfl

theorem isInvocation_probe {b : Binding} (h : x.known? w name = some b) :
    x.isInvocation w (probe name) := by
  refine isInvocation_subscript (t := w) rfl (candidate_probeName name) ?_
  rw [isCall_run, h]
  rfl

private theorem walk_probeName (hidle : x.isIdle w = false) (h : x.known? w name = none) :
    x.walk expand visit (probeName name) w = (.ok (probeName name), w) := by
  rw [probeName, walk, fold_node, visitNode, bind_ok (get_run w), hidle]
  change visitName x expand visit (probeName name) w = _
  have hid : (probeName name).attr "id" = .ok (.str name) := rfl
  rw [visitName, lift_bind_ok hid, bind_ok (isCall_of_unknown h _ _)]
  rfl

theorem walk_probe (h : x.known? w name = none) :
    x.walk expand visit (probe name) w = (.ok (probe name), w) := by
  cases hidle : x.isIdle w with
  | true => exact walk_of_isIdle expand visit _ hidle
  | false =>
    rw [probe, walk, fold_node, visitNode, bind_ok (get_run w), hidle]
    change visitSubscript x expand (probe name) _ w = _
    have hvalue : (probe name).attr "value" = .ok (probeName name) := rfl
    rw [visitSubscript, lift_bind_ok hvalue, lift_bind_ok (candidate_probeName name)]
    dsimp only
    rw [bind_ok (isCall_of_unknown h _ _)]
    refine reads_rebuild (b := fun _ => true) (p := fun _ => True) (hasLabels_probe name) fun u hu => ?_
    obtain rfl : u = probeName name := List.mem_singleton.mp hu
    exact walk_probeName hidle h

private theorem walk_beside_probe (hidle : x.isIdle w = false) (hname : x.known? w name = none)
    (h : x.walk expand visit v w = (.ok r, t)) :
    x.walk expand visit (.list [probe name, v]) w =
      (.ok (.list (probe name :: r.spliced)), t) := by
  have htail : [v].mapM (x.walk expand visit) w = (.ok [r], t) := by
    rw [List.mapM_cons, bind_ok h]
    rfl
  have hmap : [probe name, v].mapM (x.walk expand visit) w = (.ok [probe name, r], t) := by
    rw [List.mapM_cons, bind_ok (walk_probe hname), bind_ok htail]
    rfl
  have hsuite : suite [probe name, r] = .list (probe name :: r.spliced) := by
    simp [suite, flatten_eq, probe, spliced]
  rw [← hsuite, walk, fold_list, foldItems_eq]
  unfold visitRest
  rw [bind_ok (get_run w), if_neg (by simp [hidle]), List.mapM_map]
  exact bind_ok hmap

theorem ExpandsTo.beside_probe (h : x.ExpandsTo w v r t) (hidle : x.isIdle w = false)
    (hname : x.known? w name = none) :
    x.ExpandsTo w (.list [probe name, v]) (.list (probe name :: r.spliced)) t := by
  obtain ⟨depth, t', hrun, ht⟩ := expandsTo_iff.mp h
  have hlabelled (n : Nat) : (list [probe name, v]).labelled n =
      (.list [probe name, (v.labelled n).1], (v.labelled n).2) := by
    rw [labelled_list, labelledItems_cons, labelledItems_cons,
      labelled_of_hasLabels (hasLabels_probe name)]
    rfl
  refine expandsTo_iff.mpr ⟨depth, t', ?_, ht⟩
  rw [World.labelling, hlabelled, ← World.labelling]
  cases depth with
  | zero => cases hrun
  | succ depth => exact walk_beside_probe hidle hname hrun

/-- If visits leave nothing to be collected, none of them makes a name known: the probe of that name
would be left. -/
theorem Exhausts.bindsNothing (h : x.Exhausts s) : x.BindsNothing s := by
  rintro w v r t hw hexpands
  have hkept : Kept w t := by
    obtain ⟨depth, hrun⟩ := hexpands
    exact (keeps_visitTo (keeps_visitAt depth) x _ _ v).of_run hrun
  refine Eq.trans ?_ hw.known
  funext name
  cases hname : x.known? w name with
  | some b => exact known?_of_kept hkept hw.tidy hname
  | none =>
    by_contra hb
    obtain ⟨b, hb⟩ := Option.ne_none_iff_exists'.mp hb
    have hidle : x.isIdle w = false := by
      by_contra hidle
      have hidle : x.isIdle w := by simpa using hidle
      obtain ⟨depth, t', hrun, rfl⟩ := expandsTo_iff.mp hexpands
      cases depth with
      | zero => cases hrun
      | succ depth =>
        have hstay := walk_of_isIdle (w := { w with recursive := true }.labelling v)
          (x.expand (visitAt depth)) (visitAt depth) (v.labelled w.journal.next).1 hidle
        obtain ⟨-, rfl⟩ := Prod.mk.inj (hstay.symm.trans hrun)
        exact absurd (hname.symm.trans hb) (by simp)
    have hleft := h w _ _ t hw (hexpands.beside_probe hidle hname)
    exact Collection.found_collect_cons (c := ⟨t, []⟩) (isInvocation_probe hb) hleft

theorem Exhausts.keepsOthers (h : x.Exhausts s) : x.KeepsOthers s := by
  intro w v r t hw hexpands _
  by_contra hinv
  exact Collection.found_collect (c := ⟨t, []⟩) (by simpa using hinv) (h w v r t hw hexpands)

/-- Visits leave nothing to be collected if and only if none of them makes more names known or
turns something into an invocation that is none. -/
theorem exhausts_iff (x : Expander) (s : World) :
    x.Exhausts s ↔ x.BindsNothing s ∧ x.KeepsOthers s := by
  constructor
  · intro h
    exact ⟨h.bindsNothing, h.keepsOthers⟩
  · rintro ⟨hB, hK⟩ w v r t hw hexpands
    have hknown := hB w v r t hw hexpands
    obtain ⟨depth, t', hrun, rfl⟩ := expandsTo_iff.mp hexpands
    have hstart : x.Alike s ({ w with recursive := true }.labelling v) := ⟨hw.tidy, hw.known⟩
    obtain ⟨-, hr, -⟩ := ensures_visitAt hB hK depth _ (Value.hasLabels_labelled v _) _ r t'
      ⟨hstart, rfl⟩ hrun
    exact (Collection.findsNothing_collect hr.free ⟨_, []⟩ hknown).1

def nested : Value :=
  .node .subscript
    [("value", .node .subscript
      [("value", .node .name [("id", .str "m"), ("ctx", .node .load [])]),
       ("slice", .node .index
        [("value", .node .name [("id", .str "m"), ("ctx", .node .load [])])]),
       ("ctx", .node .load [])]),
     ("slice", .node .index
      [("value", .node .name [("id", .str "b"), ("ctx", .node .load [])])]),
     ("ctx", .node .load [])]

/-- The expansion of `m[m][b]` ends with `m[b]`, which is an invocation again. -/
theorem visitFor_nested :
    (∃ r t, withEcho.visitFor .recursive nested (.start (.ofQueue [])) = (.ok r, t) ∧
      (Collection.collect withEcho r ⟨t, []⟩).2.found ≠ []) ∧
    ¬ withEcho.Exhausts (.start (.ofQueue [])) := by
  have hrun : (match withEcho.visitFor .recursive nested (.start (.ofQueue [])) with
      | (.ok r, t) => (Collection.collect withEcho r ⟨t, []⟩).2.found.isEmpty
      | (.error _, _) => true) = false := by
    decide +kernel
  split at hrun
  next r t h =>
    have hfound : (Collection.collect withEcho r ⟨t, []⟩).2.found ≠ [] := by simpa using hrun
    refine ⟨⟨r, t, h, hfound⟩, fun hex => hfound (hex _ nested r t ⟨?_, rfl⟩ ⟨limit, h⟩)⟩
    intro name b hb
    cases hb
  next => cases hrun

end Expander

end TreeMacros
