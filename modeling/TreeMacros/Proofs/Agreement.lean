import TreeMacros.Proofs.Exhaustion
import TreeMacros.Proofs.Passes
import TreeMacros.Proofs.Passing

/-!
# Collecting and expanding agree

A collection and a pass of the expander take the same way through a tree until they come to the
first invocation. Where a collection finds nothing, the pass gives the tree back without a call;
where it finds something, the first call of the pass is among what it has found.
-/

namespace TreeMacros

open Value hiding none set
open Attrs (get? isHidden)
open Act (bind_eq_ok bind_error bind_ok keeps_pure lift_bind_eq_ok lift_bind_ok)
open Act (Keeps)

variable {field : String} {form : Form} {items v : Value} {xs rest : List Value}

namespace Expander

variable {α β : Type}

/-- A pass, for each way to deal with invocations and each way to visit what comes of them. -/
abbrev Pass (α : Type) := (Invocation → Expansion Value) → Visit → Expansion α

/-- The pass comes to an end without dealing with an invocation. -/
def CallsNothing (pass : Pass α) (w : World) : Prop :=
  ∃ out, ∀ expand visit, pass expand visit w = out

/-- The first thing that the pass asks for is to deal with the invocation `i` in the state `s`: a
failure there is the outcome of the pass, whatever else can be dealt with. -/
def FirstCalls (pass : Pass α) (w : World) (i : Invocation) (s : World) : Prop :=
  ∀ expand visit e t, expand i s = (.error e, t) → (pass expand visit w).1 = .error e

theorem FirstCalls.not_callsNothing {pass : Pass α} {w s : World} {i : Invocation}
    (h : FirstCalls pass w i s) : ¬ CallsNothing pass w := by
  rintro ⟨out, hout⟩
  have hfail (e : Error) : out.1 = .error e := by
    have he := h (fun _ => throw e) (fun _ _ => throw e) e s rfl
    rwa [hout] at he
  have hcontra := (hfail (.fault .assertion)).symm.trans (hfail (.fault .emptyPop))
  cases hcontra

end Expander

namespace Collection

open Expander

/-- What is found stays found. -/
def Retains (f : Invoked) (c d : Collection) : Prop := f ∈ c.found → f ∈ d.found

instance (f : Invoked) : IsPreorder Collection (Retains f) where
  refl _ h := h
  trans _ _ _ h h' hc := h' (h hc)

theorem retains_add (f : Invoked) (name : Value) (form : Form) :
    Keeps (Retains f) (add name form) := by
  intro c h
  simp only [add, Act.modify_run]
  split
  · exact h
  · exact List.mem_append_left _ h

theorem mem_found_add (s : String) (form : Form) (c : Collection) :
    ⟨.str s, form⟩ ∈ (add (.str s) form c).2.found := by
  simp only [add, Act.modify_run]
  split
  next h =>
    obtain ⟨f, hf, hsame⟩ := List.any_eq_true.mp h
    rw [Bool.and_eq_true, beq_iff_eq] at hsame
    have hfound : f = ⟨.str s, form⟩ := by rw [← eq_str_of_same hsame.1, ← hsame.2]
    rwa [hfound] at hf
  next => simp

theorem retains_scan (f : Invoked) (x : Expander) (v : Value) :
    Scan.Keeps (Retains f) (v.fold (scanNode x) fun v items _ => scanRest x v items) := by
  have hlift {α : Type} (act : Expansion α) : Keeps (Retains f) (lift act) := fun _ h => h
  exact keeps_scan (fun _ _ _ => hlift _) (fun _ _ => hlift _) (retains_add f) v

theorem retains_collect (f : Invoked) (x : Expander) (v : Value) :
    Keeps (Retains f) (collect x v) := (retains_scan f x v).visit

theorem mem_found_forIn {γ : Type} {f : Invoked} {round : γ → PUnit → M (ForInStep PUnit)}
    {ys : List γ} {y : γ} (hy : y ∈ ys) (hkeeps : ∀ z ∈ ys, ∀ b, Keeps (Retains f) (round z b))
    (hyield : ∀ z ∈ ys, ∀ b c r d, round z b c = (.ok r, d) → r = .yield ⟨⟩)
    (hfound : ∀ b c r d, round y b c = (.ok r, d) → f ∈ d.found) {b r : PUnit} {c d : Collection}
    (hrun : forIn ys b round c = (.ok r, d)) : f ∈ d.found := by
  induction ys generalizing b c with
  | nil => cases hy
  | cons z zs ih =>
    rw [List.forIn_cons] at hrun
    obtain ⟨step, m, hm, hnext⟩ := bind_eq_ok.mp hrun
    obtain rfl := hyield z (by simp) b c step m hm
    have hrest : Keeps (Retains f) (forIn zs (⟨⟩ : PUnit) round) :=
      Keeps.forIn fun u hu => hkeeps u (by simp [hu])
    rcases List.mem_cons.mp hy with rfl | hy
    · exact hrest.of_run hnext (hfound b c _ m hm)
    · exact ih hy (fun u hu => hkeeps u (by simp [hu])) (fun u hu => hyield u (by simp [hu])) hnext

theorem mem_found_visitItems {x : Expander} {k : Kind} {as : Attrs} {ds : List (Value × Bool)}
    {w t : World} {arguments : Scan → M Unit} {rest : M Unit} {item u args : Value} {s : String}
    {d : Collection} (hk : itemsField? k = some (field, form))
    (hitems : (node k as).attr field = .ok items) (hds : x.detect form items w = (.ok ds, t))
    (hitem : (item, true) ∈ ds) (hu : itemCandidate item form = .ok u)
    (hc : u.candidate? = .ok (some (.str s, args)))
    (harguments : ∀ f s, Scan.Keeps (Retains f) s → Keeps (Retains f) (arguments s))
    (hrest : ∀ f, Keeps (Retains f) rest)
    (hrun : visitItems x form k (foldAttrs (scanNode x) (fun v items _ => scanRest x v items)
      as) (.node k as) field arguments rest ⟨w, []⟩ = (.ok (), d)) :
    ⟨.str s, form⟩ ∈ d.found ∧ ∃ c, rest c = (.ok (), d) := by
  have hany : ds.any (·.2) := List.any_eq_true.mpr ⟨_, hitem, rfl⟩
  obtain ⟨hlookup, hmarked⟩ := zip_detected hk hitems hds hany
  unfold visitItems at hrun
  rw [lift_bind_ok hitems, bind_ok (lift_of_run hds), if_pos hany] at hrun
  simp only [hlookup, hmarked] at hrun
  obtain ⟨_, m, hm, hrun⟩ := bind_eq_ok.mp hrun
  obtain ⟨_, n, hn, hrun⟩ := bind_eq_ok.mp hrun
  let f : Invoked := ⟨.str s, form⟩
  have hothers : Retains f m n := by
    refine Keeps.of_run (Keeps.forIn fun y hy _ => ?_) hn
    obtain ⟨e, -, rfl⟩ := List.mem_map.mp hy
    exact ((retains_scan f x e.1).visit.bind fun _ => keeps_pure _).ite (keeps_pure _)
  refine ⟨(hrest f).of_run hrun (hothers ?_), n, hrun⟩
  refine mem_found_forIn (List.mem_map_of_mem hitem) (fun y hy _ => ?_)
    (fun y hy _ c r d h => ?_) (fun _ c r d h => ?_) hm
  · obtain ⟨e, -, rfl⟩ := List.mem_map.mp hy
    refine Keeps.ite ?_ (keeps_pure _)
    refine (Act.keeps_lift _).bind fun _ => (Act.keeps_lift _).bind fun c => ?_
    rcases c with _ | ⟨name, args⟩
    · exact keeps_pure _
    · exact (retains_add f name form).bind fun _ =>
        (harguments f _ (retains_scan f x e.1)).bind fun _ => keeps_pure _
  · obtain ⟨e, -, rfl⟩ := List.mem_map.mp hy
    split at h
    · obtain ⟨_, _, h⟩ := lift_bind_eq_ok.mp h
      obtain ⟨c, _, h⟩ := lift_bind_eq_ok.mp h
      rcases c with _ | ⟨name, args⟩
      · cases h
        rfl
      · obtain ⟨_, _, _, h⟩ := bind_eq_ok.mp h
        obtain ⟨_, _, _, h⟩ := bind_eq_ok.mp h
        cases h
        rfl
    · cases h
      rfl
  · rw [if_pos rfl, lift_bind_ok hu, lift_bind_ok hc] at h
    obtain ⟨_, m, hm, h⟩ := bind_eq_ok.mp h
    obtain ⟨_, n, hn, h⟩ := bind_eq_ok.mp h
    cases h
    have hadded := mem_found_add s form c
    rw [hm] at hadded
    exact (harguments f _ (retains_scan f x item)).of_run hn hadded

/-! ## Collections and passes side by side -/

section

variable {x : Expander} {w : World} {α β : Type} {col col' : M Unit} {pass : Pass α} {a : α}

/-- If the collection comes to its end, either it finds nothing and the pass gives `a` without a
call, or the pass calls a macro and the first call is among what the collection finds. Both start
in the state `w`. -/
def Follows (x : Expander) (w : World) (col : M Unit) (pass : Pass α) (a : α) : Prop :=
  ∀ d, col ⟨w, []⟩ = (.ok (), d) →
    (d.found = [] ∧ ∀ expand visit, pass expand visit w = (.ok a, d.world)) ∨
    ∃ i s b, FirstCalls pass w i s ∧ x.bound? i.name s = (.ok (some b), s) ∧
      ⟨i.name, i.call.form⟩ ∈ d.found

theorem follows_pure (x : Expander) (w : World) (a : α) :
    Follows x w (pure ()) (fun _ _ => pure a) a := by
  intro d hcol
  cases hcol
  exact .inl ⟨rfl, fun _ _ => rfl⟩

theorem Follows.bind {q : α → Pass β} {b : β} (h : Follows x w col pass a)
    (h' : ∀ t, Follows x t col' (q a) b) (hkeeps : ∀ f, Keeps (Retains f) col') :
    Follows x w (col >>= fun _ => col')
      (fun expand visit => pass expand visit >>= fun a => q a expand visit) b := by
  intro d hcol
  obtain ⟨_, m, hm, hd⟩ := bind_eq_ok.mp hcol
  rcases h m hm with ⟨hfound, hpass⟩ | ⟨i, s, b, hfirst, hbound, hmem⟩
  · have hrun (expand : Invocation → Expansion Value) (visit : Visit) :
        (pass expand visit >>= fun a => q a expand visit) w = q a expand visit m.world :=
      bind_ok (hpass expand visit)
    have hm : m = ⟨m.world, []⟩ := by rw [← hfound]
    rw [hm] at hd
    rcases h' m.world d hd with ⟨hnone, hq⟩ | ⟨i, s, b, hfirst, hbound, hmem⟩
    · exact .inl ⟨hnone, fun expand visit => (hrun expand visit).trans (hq expand visit)⟩
    · refine .inr ⟨i, s, b, ?_, hbound, hmem⟩
      intro expand visit e t he
      exact (congrArg Prod.fst (hrun expand visit)).trans (hfirst expand visit e t he)
  · refine .inr ⟨i, s, b, ?_, hbound, (hkeeps _).of_run hd hmem⟩
    intro expand visit e t he
    have herror : pass expand visit w = (.error e, (pass expand visit w).2) :=
      Prod.ext (hfirst expand visit e t he) rfl
    exact congrArg Prod.fst (bind_error herror)

theorem Follows.before {f : α → Expansion β} {b : β} (h : Follows x w col pass a)
    (hf : ∀ t, f a t = (.ok b, t)) :
    Follows x w col (fun expand visit => pass expand visit >>= f) b := by
  have hrest (t : World) : Follows x t (pure ()) (fun _ _ => f a) b := by
    intro d hcol
    cases hcol
    exact .inl ⟨rfl, fun _ _ => hf t⟩
  have hbind := h.bind (q := fun a _ _ => f a) hrest fun _ => keeps_pure _
  rwa [bind_pure] at hbind

theorem Follows.guard {p : World → Bool} (h : p w = false → Follows x w col pass a) :
    Follows x w (do if p (← get).world then pure () else col)
      (fun expand visit => do if p (← get) then return a else pass expand visit) a := by
  intro d hcol
  rw [bind_ok (Act.get_run _)] at hcol
  have hrun (expand : Invocation → Expansion Value) (visit : Visit) :
      (do if p (← get) then return a else pass expand visit : Expansion α) w =
        (if p w then pure a else pass expand visit) w := bind_ok (Act.get_run w)
  simp only [FirstCalls, hrun]
  cases hp : p w with
  | true =>
    simp only [hp, ↓reduceIte] at hcol ⊢
    cases hcol
    exact .inl ⟨rfl, fun _ _ => rfl⟩
  | false =>
    simp only [hp, Bool.false_eq_true, ↓reduceIte] at hcol ⊢
    exact h hp d hcol

theorem Follows.read {r : Except Error β} {col : β → M Unit} {pass : β → Pass α}
    (h : ∀ b, r = .ok b → Follows x w (col b) (pass b) a) :
    Follows x w (liftM r >>= col)
      (fun expand visit => liftM r >>= fun b => pass b expand visit) a := by
  intro d hcol
  obtain ⟨b, hb, hd⟩ := lift_bind_eq_ok.mp hcol
  have hrun (expand : Invocation → Expansion Value) (visit : Visit) :
      (liftM r >>= fun b => pass b expand visit : Expansion α) w = pass b expand visit w :=
    lift_bind_ok hb
  simpa only [FirstCalls, hrun] using h b hb d hd

theorem Follows.detect {act : Expansion β} {col : β → M Unit} {pass : β → Pass α}
    (h : ∀ b t, act w = (.ok b, t) → Follows x t (col b) (pass b) a) :
    Follows x w (lift act >>= col)
      (fun expand visit => act >>= fun b => pass b expand visit) a := by
  intro d hcol
  obtain ⟨b, m, hm, hd⟩ := bind_eq_ok.mp hcol
  have hact : act w = (.ok b, m.world) := run_of_lift hm
  have hm : m = ⟨m.world, []⟩ := by
    have hfound : m.found = [] := (congrArg (fun p => p.2.found) hm).symm
    rw [← hfound]
  rw [hm] at hd
  have hrun (expand : Invocation → Expansion Value) (visit : Visit) :
      (act >>= fun b => pass b expand visit) w = pass b expand visit m.world := bind_ok hact
  simpa only [FirstCalls, hrun] using h b m.world hact d hd

end

end Collection

namespace Expander

open Collection (Follows follows_pure Retains retains_collect)

variable {x : Expander} {w : World} {k : Kind} {as : Attrs}

/-! ## Children -/

abbrev walkOf (x : Expander) (v : Value) : Pass Value := fun expand visit => x.walk expand visit v

private theorem retains_forM (f : Invoked) (us : List Value) :
    Keeps (Retains f) (us.forM (Collection.collect x)) := Keeps.forM fun u _ => retains_collect f x u

private theorem follows_rebuildList
    (h : ∀ u ∈ xs, u.isNode → ∀ w, Follows x w (Collection.collect x u) (walkOf x u) u) :
    Follows x w ((xs.filter (·.isNode)).forM (Collection.collect x)) (fun expand visit =>
      rebuildList (·.result) (foldItems (visitNode x expand visit)
        (fun v items _ => visitRest x v items) xs)) xs := by
  induction xs generalizing w with
  | nil => exact follows_pure x w []
  | cons u xs ih =>
    have htail (w : World) := ih (w := w) fun v hv => h v (by simp [hv])
    have hitems (expand : Invocation → Expansion Value) (visit : Visit) :
        foldItems (visitNode x expand visit) (fun v items _ => visitRest x v items) (u :: xs) =
          ⟨u, x.walk expand visit u⟩ :: foldItems (visitNode x expand visit)
            (fun v items _ => visitRest x v items) xs := rfl
    cases hu : u.isNode with
    | true =>
      rw [List.filter_cons_of_pos hu]
      simp only [hitems, rebuildList_cons_node (i := ⟨u, _⟩) _ _ hu]
      have hhere : (replacement u) = .ok [u] := by
        cases u with
        | node => rfl
        | _ => cases hu
      refine (h u (by simp) hu w).bind (q := fun r expand visit =>
        MonadExcept.ofExcept (replacement r) >>= fun here => rebuildList (·.result)
          (foldItems (visitNode x expand visit) (fun v items _ => visitRest x v items) xs) >>=
            fun rest => pure (here ++ rest)) (fun t => ?_) fun f => retains_forM f _
      rw [hhere]
      exact (htail t).before fun _ => rfl
    | false =>
      rw [List.filter_cons_of_neg (by simp [hu])]
      simp only [hitems, rebuildList_cons_other (i := ⟨u, _⟩) _ _ hu]
      exact (htail w).before fun _ => rfl

private theorem follows_rebuildAttr {name : String} (hl : (node k as).hasLabels)
    (hv : get? as name = some v) (h : ∀ u ∈ childrenAt as name, ∀ w,
      Follows x w (Collection.collect x u) (walkOf x u) u) :
    Follows x w ((childrenAt as name).forM (Collection.collect x)) (fun expand visit =>
      rebuildAttr (·.result) as name (foldPart (visitNode x expand visit)
        (fun v items _ => visitRest x v items) v)) as := by
  cases v with
  | node c bs =>
    have hc : childrenAt as name = [.node c bs] := by simp [childrenAt, hv]
    have hone : [node c bs].forM (Collection.collect x) =
        Collection.collect x (.node c bs) := by
      change (Collection.collect x (.node c bs) >>= fun _ => pure ()) = _
      exact bind_pure _
    rw [hc, hone]
    exact (h (.node c bs) (by simp [hc]) w).before (Act.assign_of_get? hl rfl hv)
  | list xs =>
    have hc : childrenAt as name = xs.filter (·.isNode) := by simp [childrenAt, hv]
    rw [hc]
    exact (follows_rebuildList fun u hu hn => h u (by simp [hc, hu, hn])).before
      (Act.refill_of_get? hl hv)
  | _ =>
    have hc : childrenAt as name = [] := by simp [childrenAt, hv]
    rw [hc]
    exact follows_pure x w as

private theorem follows_visitChildren (hl : (node k as).hasLabels)
    (h : ∀ u ∈ children k as, ∀ w, Follows x w (Collection.collect x u) (walkOf x u) u) :
    Follows x w (Collection.visitChildren k (foldAttrs (Collection.scanNode x)
        (fun v items _ => Collection.scanRest x v items) as))
      (fun expand visit => visitChildren k as (foldAttrs (visitNode x expand visit)
        (fun v items _ => visitRest x v items) as)) (.node k as) := by
  have hgo : ∀ names, (∀ name ∈ names, name ∈ k.fieldNames) → ∀ w,
      Follows x w ((names.flatMap (childrenAt as)).forM (Collection.collect x))
        (fun expand visit => rebuild.go (fun _ (i : Item (Expansion Value)) => i.result)
          (foldAttrs (visitNode x expand visit) (fun v items _ => visitRest x v items) as)
          names as) as := by
    intro names hnames
    induction names with
    | nil => exact fun w => follows_pure x w as
    | cons name names ih =>
      intro w
      have htail := ih fun n hn => hnames n (by simp [hn])
      have hforM : ((name :: names).flatMap (childrenAt as)).forM (Collection.collect x) =
          ((childrenAt as name).forM (Collection.collect x) >>= fun _ =>
            (names.flatMap (childrenAt as)).forM (Collection.collect x)) := by
        rw [List.flatMap_cons]
        exact List.forM_append
      rw [hforM]
      simp only [rebuild.go, lookup_foldAttrs]
      cases hv : get? as name with
      | none =>
        have hnil : childrenAt as name = [] := by simp [childrenAt, hv]
        rw [hnil]
        exact htail w
      | some v =>
        refine (follows_rebuildAttr hl hv fun u hu => h u ?_).bind (q := fun bs expand visit =>
          rebuild.go (fun _ (i : Item (Expansion Value)) => i.result)
            (foldAttrs (visitNode x expand visit) (fun v items _ => visitRest x v items) as)
            names bs) htail fun f => retains_forM f _
        exact mem_children.mpr ⟨name, hnames name (by simp), hu⟩
  have hchildren : Collection.visitChildren k (foldAttrs (Collection.scanNode x)
      (fun v items _ => Collection.scanRest x v items) as) =
        (k.fieldNames.flatMap (childrenAt as)).forM (Collection.collect x) := by
    rw [Collection.visitChildren, childItems_foldAttrs]
    exact List.forM_map
  rw [hchildren]
  exact (hgo _ (fun _ hn => hn) w).before fun _ => rfl

/-! ## Invocations -/

section

variable {s : String} {b : Binding} {name args item : Value} {form : Form} {t : World}

theorem bound?_of_known? (h : x.known? w s = some b) :
    x.bound? (.str s) w = (.ok (some b), w) := by
  have hfind : x.find? w s = some b := by
    unfold known? at h
    split at h
    · cases h
    · exact (Option.filter_eq_some_iff.mp h).1
  have hrun : x.bound? (.str s) w = (.ok (x.find? w s), w) := rfl
  rw [hrun, hfind]

theorem known?_of_invocable? (h : x.invocable? name w = (.ok (some b), t)) :
    ∃ s, name = .str s ∧ x.known? w s = some b := by
  rw [invocable?_run] at h
  split at h
  · cases h
  · have hvalue : x.knownValue? w name = some b := Except.ok.inj (congrArg Prod.fst h)
    cases name with
    | str s => exact ⟨s, rfl, hvalue⟩
    | _ => cases hvalue

theorem known?_of_isCall (h : x.isCall name args form w = (.ok true, t)) :
    ∃ s b, name = .str s ∧ x.known? w s = some b := by
  obtain ⟨b, m, hb, h⟩ := bind_eq_ok.mp h
  cases b with
  | none => cases h
  | some b =>
    obtain ⟨s, hs, hknown⟩ := known?_of_invocable? hb
    exact ⟨s, b, hs, hknown⟩

theorem known?_of_isMacroItem (h : x.isMacroItem form item w = (.ok true, t)) :
    ∃ u s args b, itemCandidate item form = .ok u ∧
      u.candidate? = .ok (some (.str s, args)) ∧ x.known? w s = some b := by
  obtain ⟨u, hu, h⟩ := lift_bind_eq_ok.mp h
  obtain ⟨c, hc, h⟩ := lift_bind_eq_ok.mp h
  rcases c with _ | ⟨name, args⟩
  · cases h
  · obtain ⟨b, m, hb, h⟩ := bind_eq_ok.mp h
    cases b with
    | none => cases h
    | some b =>
      obtain ⟨s, rfl, hknown⟩ := known?_of_invocable? hb
      exact ⟨u, s, args, b, hu, hc, hknown⟩

theorem known?_of_detect {ds : List (Value × Bool)} (h : x.detect form items w = (.ok ds, t))
    (hitem : (item, true) ∈ ds) :
    ∃ u s args b, itemCandidate item form = .ok u ∧
      u.candidate? = .ok (some (.str s, args)) ∧ x.known? w s = some b := by
  obtain ⟨xs, -, hmap⟩ := lift_bind_eq_ok.mp h
  clear h
  induction xs generalizing w ds with
  | nil =>
    cases hmap
    cases hitem
  | cons y xs ih =>
    rw [List.mapM_cons] at hmap
    obtain ⟨d, m, hd, hmap⟩ := bind_eq_ok.mp hmap
    obtain ⟨ds, n, hds, hmap⟩ := bind_eq_ok.mp hmap
    obtain ⟨b, o, hb, hd⟩ := bind_eq_ok.mp hd
    cases hmap
    cases hd
    have hsame : x.known? m = x.known? w := by
      have hheeds := (heeds_isMacroItem x form y w w rfl).2
      rwa [hb] at hheeds
    rcases List.mem_cons.mp hitem with heq | hitem
    · cases heq
      exact known?_of_isMacroItem hb
    · obtain ⟨u, s, args, c, hu, hc, hknown⟩ := ih hitem hds
      rw [hsame] at hknown
      exact ⟨u, s, args, c, hu, hc, hknown⟩

theorem refill_run (x : Expander) (hfield : isHidden field = false) (k : Kind) (as : Attrs)
    (rest : List Value) (w : World) :
    ∃ inner t, (refill (.node k as) field rest : Expansion Value) w = (.ok inner, t) ∧
      x.known? t = x.known? w := by
  have : World.AdmitsRecords fun w t => x.known? t = x.known? w :=
    { refl := fun _ => rfl
      trans := fun _ _ _ h h' => h'.trans h
      records := fun _ _ _ _ _ _ => rfl }
  have hrefill : (refill (.node k as) field rest : Expansion Value) =
        (Act.assign as field (.set rest) >>= fun bs => pure (.node k bs)) ∨
      (refill (.node k as) field rest : Expansion Value) =
        (Act.refill as field rest >>= fun bs => pure (.node k bs)) := by
    simp only [refill]
    split
    · exact .inl rfl
    · exact .inr rfl
  rcases hrefill with h | h
  · obtain ⟨bs, t, hrun, -⟩ := yields_assign hfield as (.set rest) w
    exact ⟨.node k bs, t, by rw [h, bind_ok hrun, Act.pure_run],
      (keeps_assign (R := fun w t => x.known? t = x.known? w) as field _).of_run hrun⟩
  · obtain ⟨bs, t, hrun, -⟩ := yields_refill hfield as rest w
    exact ⟨.node k bs, t, by rw [h, bind_ok hrun, Act.pure_run],
      (keeps_refill (R := fun w t => x.known? t = x.known? w) as field rest).of_run hrun⟩

end

/-! ## Nodes -/

/-- The local condition that items which invoke macros can be taken out of the node: they stand in
a list or a set, and those of a block have a place for what follows `as`. -/
def givesItems (k : Kind) (as : Attrs) : Bool :=
  match itemsField? k with
  | none => true
  | some (field, form) =>
    match get? as field with
    | some (.list xs) | some (.set xs) => form != .block || xs.all (·.hasAttr "optional_vars")
    | some _ => false
    | none => true

theorem candidate_of_candidate? {c : Value × Value} (h : v.candidate? = .ok (some c)) :
    candidate v = .ok c := by
  simp [candidate, h, bind, Except.bind, pure, Except.pure]

theorem removable_of_givesItems (hk : itemsField? k = some (field, form))
    (h : givesItems k as) (hitems : (node k as).attr field = .ok items) :
    requireRemovable items = .ok () := by
  simp only [givesItems, hk, get?_of_attr hk hitems] at h
  cases items with
  | list xs => rfl
  | set xs => rfl
  | _ => cases h

theorem target_of_givesItems {item : Value} (h : givesItems .withStmt as)
    (hitems : (node .withStmt as).attr "items" = .ok items) (hxs : items.elements = .ok xs)
    (hitem : item ∈ xs) : ∃ u, item.attr "optional_vars" = .ok u := by
  have hget := get?_of_attr (k := .withStmt) rfl hitems
  have hall : xs.all (·.hasAttr "optional_vars") := by
    simp only [givesItems, itemsField?, hget] at h
    cases items with
    | list ys =>
      cases hxs
      simpa using h
    | set ys =>
      cases hxs
      simpa using h
    | _ => cases h
  have hattr := List.all_eq_true.mp hall item hitem
  rw [hasAttr, Option.isSome_iff_exists] at hattr
  obtain ⟨u, hu⟩ := hattr
  exact ⟨u, by rw [attr, hu]⟩

theorem attr_of_visitValue {c d : Collection}
    (h : (v.fold (Collection.scanNode x) fun v items _ =>
      Collection.scanRest x v items).visitValue c = (.ok (), d)) : ∃ u, v.attr "value" = .ok u := by
  cases v with
  | node k as =>
    obtain ⟨u, hu, -⟩ := lift_bind_eq_ok.mp h
    exact ⟨u, hu⟩
  | _ => cases h

private abbrev scans (x : Expander) (as : Attrs) : Parts Collection.Scan :=
  foldAttrs (Collection.scanNode x) (fun v items _ => Collection.scanRest x v items) as

private theorem retains_partScan (f : Invoked) {name : String}
    {scan : Collection.Scan → Collection.M Unit}
    (hscan : ∀ s, Collection.Scan.Keeps (Retains f) s → Keeps (Retains f) (scan s)) :
    Keeps (Retains f) (Collection.partScan (scans x as) v name scan) := by
  refine Collection.keeps_partScan fun p hp => ?_
  rw [lookup_foldAttrs] at hp
  obtain ⟨u, -, rfl⟩ := Option.map_eq_some_iff.mp hp
  exact hscan _ (Collection.retains_scan f x u)

theorem slice_of_partScan {c d : Collection}
    (h : Collection.partScan (scans x as) (.node .subscript as) "slice" (·.visitValue) c =
      (.ok (), d)) :
    ∃ slice tree, (node .subscript as).attr "slice" = .ok slice ∧
      slice.attr "value" = .ok tree := by
  obtain ⟨slice, hslice, h⟩ := lift_bind_eq_ok.mp h
  have hget : get? as "slice" = some slice := by
    unfold attr attr? at hslice
    cases hget : get? as "slice" with
    | some v =>
      simp only [hget] at hslice
      exact congrArg some (Except.ok.inj hslice)
    | none =>
      simp only [hget] at hslice
      cases hslice
  rw [lookup_foldAttrs, hget] at h
  obtain ⟨tree, htree⟩ := attr_of_visitValue (v := slice) h
  exact ⟨slice, tree, hslice, htree⟩

section

variable {children : Pass Value}

private theorem follows_visitSubscript
    (hchildren : ∀ w, Follows x w (Collection.visitChildren .subscript (scans x as)) children
      (.node .subscript as)) :
    Follows x w (Collection.visitNode x .subscript as (scans x as))
      (fun expand visit => visitSubscript x expand (.node .subscript as) (children expand visit))
      (.node .subscript as) := by
  unfold Collection.visitNode visitSubscript
  refine Follows.read fun head hhead => Follows.read fun c hc => ?_
  rcases c with _ | ⟨name, args⟩
  · exact hchildren w
  · refine Follows.detect fun b t hb => ?_
    cases b with
    | false => exact hchildren t
    | true =>
      intro d hcol
      obtain ⟨s, b, rfl, hknown⟩ := known?_of_isCall hb
      have ht : t = w := (congrArg Prod.snd hb).symm.trans (isCall_state x _ args .expr w)
      subst ht
      obtain ⟨_, m, hadd, hcol⟩ := bind_eq_ok.mp hcol
      obtain ⟨_, n, hvalue, hcol⟩ := bind_eq_ok.mp hcol
      obtain ⟨slice, tree, hslice, htree⟩ := slice_of_partScan hcol
      let i : Invocation := ⟨.str s, (node .subscript as).sourceOrExplain false,
        ⟨.expr, tree, none, args, none, .node .subscript as⟩⟩
      refine .inr ⟨i, t, b, ?_, bound?_of_known? hknown, ?_⟩
      · intro expand visit e u he
        simp only [↓reduceIte]
        rw [lift_bind_ok hslice, lift_bind_ok htree, he]
      · have hadded := Collection.mem_found_add s .expr ⟨t, []⟩
        rw [hadd] at hadded
        exact (retains_partScan _ fun _ hs => hs.visitValue).of_run hcol
          ((retains_partScan _ fun _ hs => hs.visitOwnArguments).of_run hvalue hadded)

private theorem visitItems_cases {arguments : Collection.Scan → Collection.M Unit}
    {rest : Collection.M Unit} {d : Collection}
    (h : Collection.visitItems x form k (scans x as) (.node k as) field arguments rest ⟨w, []⟩ =
      (.ok (), d)) :
    ∃ items ds t, (node k as).attr field = .ok items ∧
      x.detect form items w = (.ok ds, t) ∧ (ds.any (·.2) = false →
        Collection.visitChildren k (scans x as) ⟨t, []⟩ = (.ok (), d)) := by
  unfold Collection.visitItems at h
  obtain ⟨items, hitems, h⟩ := lift_bind_eq_ok.mp h
  obtain ⟨ds, m, hm, h⟩ := bind_eq_ok.mp h
  have hds : x.detect form items w = (.ok ds, m.world) := Collection.run_of_lift hm
  refine ⟨items, ds, m.world, hitems, hds, fun hany => ?_⟩
  have hfound : m.found = [] := (congrArg (fun p => p.2.found) hm).symm
  rw [if_neg (by simp [hany])] at h
  rw [← hfound]
  exact h

private theorem follows_visitWith (hgives : givesItems .withStmt as)
    (hchildren : ∀ w, Follows x w (Collection.visitChildren .withStmt (scans x as)) children
      (.node .withStmt as)) :
    Follows x w (Collection.visitNode x .withStmt as (scans x as))
      (fun expand visit => visitWith x expand (.node .withStmt as) (children expand visit))
      (.node .withStmt as) := by
  intro d hcol
  obtain ⟨items, ds, t, hitems, hds, hnone⟩ := visitItems_cases hcol
  have hstart (expand : Invocation → Expansion Value) (children : Expansion Value) :
      visitWith x expand (.node .withStmt as) children w = _ :=
    (lift_bind_ok hitems).trans (bind_ok hds)
  cases hpop : popFirst ds with
  | none =>
    simp only [FirstCalls, hstart, hpop]
    exact hchildren t d (hnone (any_of_popFirst hpop))
  | some p =>
    obtain ⟨item, rest⟩ := p
    have hitem := mem_of_popFirst hpop
    obtain ⟨u, s, args, b, hu, hc, hknown⟩ := known?_of_detect hds hitem
    have hmem : item ∈ ds.map (·.1) := List.mem_map_of_mem hitem
    obtain ⟨target, htarget⟩ :=
      target_of_givesItems hgives hitems (elements_of_detect hds).1 hmem
    obtain ⟨inner, n, hinner, hn⟩ := refill_run x
      (Kind.isHidden_of_mem (k := .withStmt) (by decide : "items" ∈ _)) .withStmt as rest t
    obtain ⟨hfound, c, hrest⟩ := Collection.mem_found_visitItems rfl hitems hds hitem hu hc
      (fun f s hs => hs.visitHeaderArguments) (fun f => retains_partScan f fun _ hs => hs.visit) hcol
    obtain ⟨body, hbody, -⟩ := lift_bind_eq_ok.mp hrest
    have hknown' : x.known? n s = some b := by
      have hdetect := (heeds_detect x .block items w w rfl).2
      rw [hds] at hdetect
      rw [hn, hdetect, hknown]
    have htree : (if rest.isEmpty then (node .withStmt as).attr "body" else .ok (.list [inner])) =
        .ok (if rest.isEmpty then body else .list [inner]) := by
      split
      · exact hbody
      · rfl
    exact .inr ⟨_, n, b, fun expand visit e o he => (congrArg Prod.fst (visitWith_run hitems hds hpop
      hu (candidate_of_candidate? hc) (removable_of_givesItems rfl hgives hitems) hinner htarget
        htree)).trans (congrArg Prod.fst (bind_error he)), bound?_of_known? hknown', hfound⟩

private theorem follows_visitDecorated (hk : itemsField? k = some ("decorator_list", .decorator))
    (hgives : givesItems k as)
    (hchildren : ∀ w, Follows x w (Collection.visitChildren k (scans x as)) children (.node k as)) :
    Follows x w (Collection.visitItems x .decorator k (scans x as) (.node k as) "decorator_list"
        (·.visitOwnArguments)
        (Collection.visitFieldsExcept (scans x as) (.node k as) ["decorator_list", "name"]))
      (fun expand visit => visitDecorated x expand (.node k as) (children expand visit))
      (.node k as) := by
  intro d hcol
  obtain ⟨items, ds, t, hitems, hds, hnone⟩ := visitItems_cases hcol
  have hstart (expand : Invocation → Expansion Value) (children : Expansion Value) :
      visitDecorated x expand (.node k as) children w = _ :=
    (lift_bind_ok hitems).trans (bind_ok hds)
  cases hpop : popLast ds with
  | none =>
    simp only [FirstCalls, hstart, hpop]
    exact hchildren t d (hnone (any_of_popLast hpop))
  | some p =>
    obtain ⟨item, rest⟩ := p
    have hitem := mem_of_popLast hpop
    obtain ⟨u, s, args, b, hu, hc, hknown⟩ := known?_of_detect hds hitem
    cases hu
    obtain ⟨inner, n, hinner, hn⟩ := refill_run x
      (Kind.isHidden_of_mem (k := .classDef) (by decide : "decorator_list" ∈ _)) k as rest t
    have hfields (f : Invoked) : Keeps (Retains f) (Collection.visitFieldsExcept (scans x as)
        (.node k as) ["decorator_list", "name"]) := by
      refine Collection.keeps_visitFieldsExcept fun name p hp => ?_
      rw [lookup_foldAttrs] at hp
      obtain ⟨u, -, rfl⟩ := Option.map_eq_some_iff.mp hp
      exact (Collection.retains_scan f x u).visit
    obtain ⟨hfound, -⟩ := Collection.mem_found_visitItems hk hitems hds hitem rfl hc
      (fun f s hs => hs.visitOwnArguments) hfields hcol
    have hknown' : x.known? n s = some b := by
      have hdetect := (heeds_detect x .decorator items w w rfl).2
      rw [hds] at hdetect
      rw [hn, hdetect, hknown]
    exact .inr ⟨_, n, b, fun expand visit e o he => (congrArg Prod.fst (visitDecorated_run hitems hds
      hpop (candidate_of_candidate? hc) (removable_of_givesItems hk hgives hitems) hinner)).trans
        (congrArg Prod.fst (bind_error he)), bound?_of_known? hknown', hfound⟩

private theorem follows_visitName :
    Follows x w (Collection.visitNode x .name as (scans x as))
      (fun expand visit => visitName x expand visit (.node .name as)) (.node .name as) := by
  unfold Collection.visitNode visitName
  refine Follows.read fun name hname => Follows.detect fun b t hb => ?_
  cases b with
  | false => exact follows_pure x t _
  | true =>
    intro d hcol
    obtain ⟨s, b, rfl, hknown⟩ := known?_of_isCall hb
    have ht : t = w := (congrArg Prod.snd hb).symm.trans (isCall_state x _ .none .name w)
    subst ht
    let i : Invocation := ⟨.str s, (node .name as).sourceOrExplain false,
      ⟨.name, .node .name as, none, .none, none, .node .name as⟩⟩
    have hfound := Collection.mem_found_add s .name ⟨t, []⟩
    have hadd : Collection.add (.str s) .name ⟨t, []⟩ = (.ok (), d) := hcol
    rw [hadd] at hfound
    -- The macro is called outside of recursive mode, which is no other state to look names up in.
    refine .inr ⟨i, { t with recursive := false }, b, ?_, bound?_of_known? hknown, hfound⟩
    intro expand visit e o he
    have hmode : Expansion.inMode false (expand i) t =
        (.error e, { o with recursive := t.recursive }) := by
      simp only [Expansion.inMode, Act.within, he]
    simp only [↓reduceIte]
    exact congrArg Prod.fst (bind_error hmode)

end

/-- Items that invoke macros can be taken out wherever a visit comes to. -/
def givesAllItems (v : Value) : Bool :=
  v.throughout (fun k => k != .done && k != .name) givesItems

theorem follows_collect (hn : v.isNode) (hl : v.hasLabels)
    (hgives : givesAllItems v) (w : World) :
    Follows x w (Collection.collect x v) (walkOf x v) v := by
  induction v using walkInduction generalizing w with
  | rest v hrest =>
    rw [hn] at hrest
    cases hrest
  | node k as ih =>
    obtain ⟨hhere, hbelow⟩ := throughout_node.mp hgives
    have hchildren (hdone : k ≠ .done) (hname : k ≠ .name) (w : World) :
        Follows x w (Collection.visitChildren k (scans x as)) (fun expand visit =>
          visitChildren k as (foldAttrs (visitNode x expand visit)
            (fun v items _ => visitRest x v items) as)) (.node k as) :=
      follows_visitChildren hl fun u hu => ih u hu (isNode_of_mem_children hu)
        (hasLabels_of_mem_children hl hu) (hbelow (by simp [hdone, hname]) u hu)
    refine Follows.guard (p := fun w => x.isIdle w || k == .done) fun hgo => ?_
    have hdone : k ≠ .done := by
      rintro rfl
      simp at hgo
    by_cases hsubscript : k = .subscript
    · subst hsubscript
      exact follows_visitSubscript (hchildren hdone (by simp))
    by_cases hwith : k = .withStmt
    · subst hwith
      exact follows_visitWith hhere (hchildren hdone (by simp))
    by_cases hfunction : k = .functionDef
    · subst hfunction
      exact follows_visitDecorated rfl hhere (hchildren hdone (by simp))
    by_cases hclass : k = .classDef
    · subst hclass
      exact follows_visitDecorated rfl hhere (hchildren hdone (by simp))
    by_cases hname : k = .name
    · subst hname
      exact follows_visitName
    by_cases hconstant : k = .constant
    · subst hconstant
      exact Follows.read fun _ _ => hchildren hdone hname w
    · have hcol : Collection.visitNode x k as (scans x as) =
          Collection.visitChildren k (scans x as) := by
        unfold Collection.visitNode
        split <;> simp_all
      rw [hcol]
      convert hchildren hdone hname w using 3
      split <;> simp_all

theorem givesItems_unlabelledAttrs (k : Kind) (as : Attrs) :
    givesItems k (unlabelledAttrs as) = givesItems k as := by
  have htarget : isHidden "optional_vars" = false :=
    Kind.isHidden_of_mem (k := .withItem) (by decide)
  have hattr (u : Value) : u.unlabelled.hasAttr "optional_vars" = u.hasAttr "optional_vars" := by
    simp [hasAttr, attr?_unlabelled htarget]
  have hall (xs : List Value) : (xs.map unlabelled).all (·.hasAttr "optional_vars") =
      xs.all (·.hasAttr "optional_vars") := by
    simp only [List.all_map, Function.comp_def, hattr]
  unfold givesItems
  cases hk : itemsField? k with
  | none => rfl
  | some p =>
    obtain ⟨field, form⟩ := p
    have hfield : isHidden field = false := by
      unfold itemsField? at hk
      split at hk
      · cases hk
        exact Kind.isHidden_of_mem (k := .withStmt) (by decide)
      · cases hk
        exact Kind.isHidden_of_mem (k := .functionDef) (by decide)
      · cases hk
        exact Kind.isHidden_of_mem (k := .classDef) (by decide)
      · cases hk
    simp only [get?_unlabelledAttrs hfield]
    cases get? as field with
    | none => rfl
    | some v => cases v <;> simp [unlabelled, unlabelledItems_eq, hall]

theorem givesAllItems_labelled (v : Value) (n : Nat) :
    givesAllItems (v.labelled n).1 = givesAllItems v :=
  throughout_labelled givesItems_unlabelledAttrs v n

/-- A block with its header in a tuple, as in `with m: pass`. -/
def tupleBlock : Value :=
  .node .withStmt
    [("items", .tuple [.node .withItem
      [("context_expr", .node .name [("id", .str "m"), ("ctx", .node .load [])])]]),
     ("body", .list [.node .passStmt []])]

end Expander

end TreeMacros
