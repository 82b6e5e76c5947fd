import TreeMacros.Proofs.Contexts
import TreeMacros.Proofs.LocatedOutput

/-!
# Filling in what an output leaves open

What a macro gives is filled in before it is visited: locations come from the invocation, contexts
from where an expression stands. Both passes do the same to a tree whether changes are noted down
or not, so what they make of it can be worked out without the journal.
-/

namespace TreeMacros

open Act (Yields)

def World.OnlyJournal (w t : World) : Prop := t = { w with journal := t.journal }

instance : World.AdmitsJournal World.OnlyJournal where
  refl _ := rfl
  trans _ _ _ h h' := by
    rw [World.OnlyJournal] at h h' ⊢
    rw [h', h]
  journal _ _ := rfl

theorem mirrors_of_ite_bind {α β γ δ : Type} {P : β → δ → Prop} {p : Prop} [Decidable p]
    {act act' : Expansion α} {e e' : Except Error γ} {f : α → Expansion β}
    {g : γ → Except Error δ}
    (h : Mirrors P ((if p then act else act') >>= f) ((if p then e else e') >>= g)) :
    Mirrors P (if p then act >>= f else act' >>= f) (if p then e >>= g else e' >>= g) := by
  split
  next hp => rwa [if_pos hp, if_pos hp] at h
  next hp => rwa [if_neg hp, if_neg hp] at h

namespace Value

variable {v : Value} {k : Kind} {as : Attrs} {c : Context} {line column : Value}

theorem mirrors_fixLocations (reference v : Value) :
    Mirrors (Matches v) (fixLocations .reference reference v : Expansion Value)
      (fixLocations .reference reference.unlabelled v.unlabelled) := by
  unfold fixLocations
  rw [attr?_unlabelled isHidden_location.1, attr?_unlabelled isHidden_location.2.1]
  cases reference.attr? "lineno" with
  | none => exact mirrors_pure ⟨rfl, fun h => by rwa [isNode_unlabelled]⟩
  | some line =>
    cases reference.attr? "col_offset" with
    | none => exact mirrors_pure ⟨rfl, fun h => by rwa [isNode_unlabelled]⟩
    | some column => exact mirrors_place v line column

theorem lacksContext_unlabelledAttrs (k : Kind) (as : Attrs) :
    lacksContext k (unlabelledAttrs as) = lacksContext k as := by
  have hctx : Attrs.isHidden "ctx" = false := Kind.isHidden_of_mem (k := .name) (by decide)
  unfold lacksContext
  rw [get?_unlabelledAttrs hctx]
  rcases Attrs.get? as "ctx" with _ | u
  · rfl
  · cases u <;> simp [unlabelled]

theorem requireAttrs_unlabelled {names : List String}
    (h : ∀ name ∈ names, Attrs.isHidden name = false) (k : Kind) (as : Attrs) :
    (node k (unlabelledAttrs as)).requireAttrs names = (node k as).requireAttrs names := by
  induction names with
  | nil => rfl
  | cons name names ih =>
    have hattr := attr?_unlabelled (h name (by simp)) (node k as)
    rw [unlabelled] at hattr
    unfold requireAttrs attr
    rw [hattr, ih fun n hn => h n (by simp [hn])]
    cases (node k as).attr? name <;> rfl

theorem mirrors_placeContexts (v : Value) (c : Context) :
    Mirrors (Matches v) (v.placeContexts c : Expansion Value) (v.unlabelled.placeContexts c) := by
  induction v using walkInduction generalizing c with
  | node k as ih =>
    have hctx : Attrs.isHidden "ctx" = false := Kind.isHidden_of_mem (k := .name) (by decide)
    have hnode : c.node.unlabelled = c.node := by cases c <;> rfl
    have hstart : Mirrors (fun bs cs => unlabelledAttrs bs = cs)
        (if lacksContext k as then Editing.assign as "ctx" c.node else pure as : Expansion Attrs)
        (if lacksContext k as then Editing.assign (unlabelledAttrs as) "ctx" c.node
          else pure (unlabelledAttrs as)) := by
      split
      · exact (yields_assign hctx as c.node).mirrors fun bs hbs => by rw [hbs, hnode]
      · exact mirrors_pure rfl
    rw [unlabelled, placeContexts, placeContexts, fold_node, fold_node, lacksContext_unlabelledAttrs]
    refine mirrors_of_ite_bind (hstart.bind fun bs cs hcs => ?_)
    subst hcs
    dsimp only
    rw [requireAttrs_unlabelled fun name hname =>
      Kind.isHidden_of_mem (Context.mem_fieldNames_of_ofChildren k name hname).1]
    split
    · exact mirrors_throw _
    · refine (mirrors_rebuild_from
        (fun name (r : Context → Expansion Value) => r (handedTo k c name))
        (fun name (r : Context → Except Error Value) => r (handedTo k c name)) bs
        fun name hname u hu => ?_).mono fun r s h => ⟨h.1, fun _ => h.2⟩
      have hu := mem_children.mpr ⟨name, hname, hu⟩
      exact (ih u hu _).mono fun r s h => ⟨h.1, h.2 (isNode_of_mem_children hu)⟩
  | rest v hn ih =>
    cases v with
    | node => cases hn
    | list xs =>
      rw [unlabelled, unlabelledItems_eq, placeContexts, placeContexts, fold_list, fold_list,
        foldItems_eq, foldItems_eq, List.mapM_map, List.mapM_map]
      have hitems := mirrors_mapM_unlabelled
        (f := fun u => (u.placeContexts c : Expansion Value)) (g := fun u => u.placeContexts c)
        fun u hu => (ih u hu c).mono fun r s h => h.1
      refine hitems.bind fun rs ss hss => mirrors_pure ⟨?_, (by cases ·)⟩
      rw [unlabelled_suite, hss]
    | _ => exact mirrors_throw _

end Value

theorem Mirrors.run {α β : Type} {P : α → β → Prop} {act : Expansion α} {b : β}
    (h : Mirrors P act (.ok b)) (w : World) : ∃ a t, act w = (.ok a, t) ∧ P a b := by
  match hact : act w with
  | (.ok a, t) =>
    obtain ⟨c, hc, hP⟩ := h.ok w a t hact
    cases hc
    exact ⟨a, t, rfl, hP⟩
  | (.error e, t) => cases h.error w e t hact

namespace Expander

theorem outputOf_of_run {x : Expander} {visit : Visit} {w s : World} {name source : String}
    {m : Macro} {f : Call → Program} {call : Call} {v : Value}
    (hknown : x.known? w name = some (.transformer m)) (hf : m.transformer = .eager f)
    (hrun : run visit x m (f call) w = (.ok v, s))
    (hcheck : ∀ location, checkOutput location v = .ok v) :
    x.outputOf visit ⟨.str name, source, call⟩ w = (.ok v, s) := by
  have hready : (run visit x m (f call) >>= fun v => pure (Answered.ready v)) w =
      (.ok (.ready v), s) := by rw [Act.bind_ok hrun]; rfl
  have happly : apply visit x (.transformer m) call w = (.ok (.ready v), s) := by
    simp only [apply, hf]
    exact hready
  have hattempt : Act.attempt (apply visit x (.transformer m) call) w =
      (.ok (.ok (.ready v)), s) := by
    have hrun : Act.attempt (apply visit x (.transformer m) call) w =
        (.ok (apply visit x (.transformer m) call w).1,
          (apply visit x (.transformer m) call w).2) := rfl
    rw [hrun, happly]
  unfold outputOf
  rw [Act.bind_ok (bound?_of_known? hknown)]
  dsimp only
  rw [Act.bind_ok hattempt]
  simp only [takeOutput, hcheck]
  rfl

def fillIn (invocation v : Value) : Expansion Value := do
  let located ← Value.fixLocations .reference invocation v
  Act.label (← located.fixContexts)

theorem settle_eq (visit : Visit) (x : Expander) (invocation v : Value) :
    settle visit x invocation v = if v.isNone then pure .none else do
      let fixed ← fillIn invocation v
      if (← get).recursive then visit x fixed else return fixed := by
  unfold settle fillIn
  simp only [bind_assoc]

theorem keeps_fillIn {R : World → World → Prop} [World.AdmitsJournal R] (invocation v : Value) :
    Act.Keeps R (fillIn invocation v) :=
  (keeps_fixLocations _ _ _).bind fun _ => (keeps_placeContexts _ _).bind fun _ => keeps_label _

theorem fillIn_run {invocation v located r : Value}
    (hlocated : Value.fixLocations .reference invocation.unlabelled v.unlabelled =
      (.ok located : Except Error Value))
    (hr : located.fixContexts = (.ok r : Except Error Value)) (w : World) :
    ∃ fixed t, fillIn invocation v w = (.ok fixed, t) ∧ fixed.unlabelled = r ∧
      fixed.hasLabels = true ∧ World.OnlyJournal w t := by
  have hplace := Value.mirrors_fixLocations invocation v
  rw [hlocated] at hplace
  obtain ⟨u, w₁, hu, rfl, -⟩ := hplace.run w
  have hcontexts := Value.mirrors_placeContexts u .load
  rw [show u.unlabelled.placeContexts .load = (.ok r : Except Error Value) from hr] at hcontexts
  obtain ⟨s, w₂, hs, rfl, -⟩ := hcontexts.run w₁
  have hrun : fillIn invocation v w =
      (.ok (s.labelled w₂.journal.next).1, w₂.labelling s) := by
    unfold fillIn
    rw [Act.bind_ok hu, Value.fixContexts, Act.bind_ok hs, Act.label_run]
  exact ⟨_, _, hrun, Value.unlabelled_labelled _ _, Value.hasLabels_labelled _ _,
    (keeps_fillIn invocation v).of_run hrun⟩

end Expander

end TreeMacros
