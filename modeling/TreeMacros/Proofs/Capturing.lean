import TreeMacros.Proofs.Detection

/-!
# Captured macros

A macro that is captured gets a global name. The name stays bound to the macro in all later states,
and whoever captures the macro again gets the same name.
-/

namespace TreeMacros

namespace Bindings

variable {bs cs : Bindings} {name : String} {b : Binding}

def Distinct (bs : Bindings) : Prop := (bs.map (·.1)).Nodup

instance (bs : Bindings) : Decidable bs.Distinct := inferInstanceAs (Decidable (List.Nodup _))

theorem get?_cons (bs : Bindings) (n name : String) (b : Binding) :
    get? ((n, b) :: bs) name = if name = n then some b else get? bs name := by
  by_cases h : name = n
  · simp [get?, h]
  · simp [get?, List.lookup_cons, beq_eq_false_iff_ne.mpr h, h]

theorem mem_of_get? (h : get? bs name = some b) : (name, b) ∈ bs := by
  obtain ⟨before, after, rfl, -⟩ := List.lookup_eq_some_iff.mp h
  simp

theorem get?_of_mem (hbs : bs.Distinct) (h : (name, b) ∈ bs) : get? bs name = some b := by
  induction bs with
  | nil => cases h
  | cons c bs ih =>
    obtain ⟨hc, hrest⟩ := List.nodup_cons.mp hbs
    rw [get?_cons]
    rcases List.mem_cons.mp h with rfl | h
    · simp
    · have hn : name ≠ c.1 := by
        rintro rfl
        exact hc (List.mem_map_of_mem (f := (·.1)) h)
      rw [if_neg hn, ih hrest h]

theorem get?_eq_some_iff (hbs : bs.Distinct) : get? bs name = some b ↔ (name, b) ∈ bs :=
  ⟨mem_of_get?, get?_of_mem hbs⟩

theorem get?_eq_none_iff : get? bs name = none ↔ name ∉ bs.map (·.1) := by
  rw [get?, List.lookup_eq_none_iff, List.mem_map]
  grind

theorem insert_of_get?_eq_none (h : get? bs name = none) (b : Binding) :
    insert bs name b = bs ++ [(name, b)] := by
  induction bs with
  | nil => rfl
  | cons c bs ih =>
    rw [get?_cons] at h
    have hn : name ≠ c.1 := by
      rintro rfl
      simp at h
    rw [if_neg hn] at h
    rw [insert, if_neg (by simpa using hn.symm), ih h]
    rfl

theorem map_fst_insert (bs : Bindings) (name : String) (b : Binding) :
    (insert bs name b).map (·.1) =
      if name ∈ bs.map (·.1) then bs.map (·.1) else (bs.map (·.1)).concat name := by
  induction bs with
  | nil => rfl
  | cons c bs ih =>
    rw [insert]
    by_cases hn : c.1 = name
    · simp [hn]
    · simp only [beq_iff_eq, hn, ↓reduceIte, List.map_cons, ih, List.mem_cons, Ne.symm hn, false_or]
      split <;> rfl

theorem Distinct.insert (h : bs.Distinct) (name : String) (b : Binding) :
    (insert bs name b).Distinct := by
  unfold Distinct at h ⊢
  rw [map_fst_insert]
  split
  · exact h
  next hn => exact h.concat hn

theorem Distinct.insertAll (h : bs.Distinct) (cs : Bindings) : (insertAll bs cs).Distinct := by
  induction cs generalizing bs with
  | nil => exact h
  | cons c cs ih => exact ih (h.insert c.1 c.2)

theorem get?_insertAll (hcs : cs.Distinct) (bs : Bindings) (name : String) :
    get? (insertAll bs cs) name = (get? cs name).or (get? bs name) := by
  induction cs generalizing bs with
  | nil => rfl
  | cons c cs ih =>
    obtain ⟨hc, hrest⟩ := List.nodup_cons.mp hcs
    have hstep : insertAll bs (c :: cs) = insertAll (insert bs c.1 c.2) cs := rfl
    rw [hstep, ih hrest, get?_insert, get?_cons]
    by_cases hn : name = c.1
    · have hnone : get? cs c.1 = none := get?_eq_none_iff.mpr hc
      simp [hn, hnone]
    · simp [hn]

theorem get?_filter (hbs : bs.Distinct) (p : Binding → Bool) (name : String) :
    get? (bs.filter fun c => p c.2) name = (get? bs name).filter p := by
  have hfilter : Distinct (bs.filter fun c => p c.2) :=
    List.Nodup.sublist (List.filter_sublist.map _) hbs
  refine Option.ext fun b => ?_
  rw [get?_eq_some_iff hfilter, Option.filter_eq_some_iff, get?_eq_some_iff hbs, List.mem_filter]

theorem get?_append_of_eq_some (h : get? bs name = some b) (cs : Bindings) :
    get? (bs ++ cs) name = some b := by
  unfold get? at h ⊢
  rw [List.lookup_append, h]
  rfl

theorem nameOf?_append_of_eq_some (h : nameOf? bs b = some name) (cs : Bindings) :
    nameOf? (bs ++ cs) b = some name := by
  unfold nameOf? at h ⊢
  obtain ⟨c, hc, rfl⟩ := Option.map_eq_some_iff.mp h
  rw [List.find?_append, hc]
  rfl

end Bindings

namespace World

theorem Tidy.get?_fresh {w : World} (hw : w.Tidy) (base : Value) :
    Bindings.get? w.globals (w.names.fresh base).1 = none :=
  Option.eq_none_iff_forall_ne_some.mpr fun b hb =>
    NameSupply.fresh_notMem w.names base (hw _ b hb)

/-- Expansion adds to the global bindings at the end. -/
structure Extends (w t : World) : Prop where
  tidy : w.Tidy → t.Tidy
  globals : w.Tidy → w.globals <+: t.globals

instance : Admits Extends where
  refl _ := ⟨fun h => h, fun _ => List.prefix_rfl⟩
  trans _ _ _ h h' := ⟨fun hw => h'.tidy (h.tidy hw),
    fun hw => (h.globals hw).trans (h'.globals (h.tidy hw))⟩
  records _ _ _ _ _ _ := ⟨fun h => h, fun _ => List.prefix_rfl⟩
  fresh w base := ⟨(Admits.fresh (R := Kept) w base).tidy, fun _ => List.prefix_rfl⟩
  capture w base c hc := by
    refine ⟨(Admits.capture (R := Kept) w base c hc).tidy, fun hw => ?_⟩
    simp only [Bindings.insert_of_get?_eq_none (hw.get?_fresh base)]
    exact List.prefix_append _ _
  mode _ _ _ h := ⟨h.tidy, h.globals⟩
  quoteLevel _ _ _ h := ⟨h.tidy, h.globals⟩
  stepLevel _ _ _ h := ⟨h.tidy, h.globals⟩

/-- The states that can come after a state: fresh names are taken, macros are captured and trees are
visited, in any order and by any expanders. -/
inductive Later (w : World) : World → Prop
  | now : Later w w
  | fresh {t : World} (base : Value) : Later w t → Later w (Expansion.fresh base t).2
  | capture {t : World} (x : Expander) (body : Value) : Later w t → Later w (x.capture? body t).2
  | visit {t : World} (x : Expander) (extent : Extent) (v : Value) :
      Later w t → Later w (x.visitFor extent v t).2

theorem Later.extends {w t : World} (h : Later w t) : Extends w t := by
  induction h with
  | now => exact refl_of Extends w
  | fresh base _ ih => exact IsTrans.trans _ _ _ ih (keeps_fresh base _)
  | capture x body _ ih => exact IsTrans.trans _ _ _ ih (keeps_capture? x body _)
  | visit x extent v _ ih =>
    exact IsTrans.trans _ _ _ ih
      (Expander.keeps_visitTo (Expander.keeps_visitAt _) x extent none v _)

/-- Global names are taken from the supply of names, differ, and are not empty. -/
structure Orderly (w : World) : Prop where
  tidy : w.Tidy
  distinct : Bindings.Distinct w.globals
  named : Bindings.get? w.globals "" = none

/-- The macro has been captured under the name `g`. -/
structure Captured (w : World) (f : Macro) (g : String) : Prop where
  tidy : w.Tidy
  nameOf : Bindings.nameOf? w.globals (.transformer f) = some g
  bound : ∃ b, Bindings.get? w.globals g = some b ∧ b.same (.transformer f) = true
  named : g ≠ ""

variable {w t : World} {f : Macro} {g : String}

theorem Captured.of_extends (h : w.Captured f g) (ht : Extends w t) : t.Captured f g := by
  obtain ⟨more, hmore⟩ := ht.globals h.tidy
  obtain ⟨b, hb, hsame⟩ := h.bound
  refine ⟨ht.tidy h.tidy, ?_, ⟨b, ?_, hsame⟩, h.named⟩
  · rw [← hmore]
    exact Bindings.nameOf?_append_of_eq_some h.nameOf more
  · rw [← hmore]
    exact Bindings.get?_append_of_eq_some hb more

theorem Captured.later (h : w.Captured f g) (ht : Later w t) : t.Captured f g :=
  h.of_extends ht.extends

end World

namespace Expansion

variable {w : World} {b : Binding} {f : Macro} {g : String}

theorem captureGlobally_of_eq_some (h : Bindings.nameOf? w.globals b = some g) (base : Value) :
    captureGlobally b base w = (.ok g, w) := by
  rw [captureGlobally, Act.bind_ok (Act.get_run w), h]
  rfl

theorem captureGlobally_of_eq_none (h : Bindings.nameOf? w.globals b = none) (base : Value) :
    captureGlobally b base w = (.ok (w.names.fresh base).1, { w with
      names := (w.names.fresh base).2
      globals := Bindings.insert w.globals (w.names.fresh base).1 b }) := by
  rw [captureGlobally, Act.bind_ok (Act.get_run w), h]
  rfl

theorem captured_captureGlobally (hw : w.Orderly) (f : Macro) (base : Value) :
    ∃ g t, captureGlobally (.transformer f) base w = (.ok g, t) ∧ t.Captured f g := by
  cases hname : Bindings.nameOf? w.globals (.transformer f) with
  | some g =>
    obtain ⟨c, hc, rfl⟩ := Option.map_eq_some_iff.mp hname
    have hget : Bindings.get? w.globals c.1 = some c.2 :=
      Bindings.get?_of_mem hw.distinct (List.mem_of_find?_eq_some hc)
    have hne : c.1 ≠ "" := by
      intro h
      rw [h, hw.named] at hget
      cases hget
    have hsame : c.2.same (.transformer f) :=
      List.find?_some (p := fun c : String × Binding => c.2.same (.transformer f)) hc
    exact ⟨c.1, w, captureGlobally_of_eq_some hname base, hw.tidy, hname, ⟨c.2, hget, hsame⟩, hne⟩
  | none =>
    refine ⟨_, _, captureGlobally_of_eq_none hname base, ?_⟩
    have hself : (Binding.transformer f).same (.transformer f) := beq_self_eq_true f.identity
    refine ⟨(World.Admits.capture (R := World.Kept) w base (.transformer f) rfl).tidy hw.tidy,
      ?_, ⟨.transformer f, by simp [Bindings.get?_insert], hself⟩, ?_⟩
    · rw [Bindings.insert_of_get?_eq_none (hw.tidy.get?_fresh base), Bindings.nameOf?,
        List.find?_append, Option.map_eq_none_iff.mp hname]
      simp [hself]
    · exact NameSupply.fresh_ne_empty w.names base

end Expansion

namespace Expander

variable {x : Expander} {w : World} {body : Value} {m g : String} {f : Macro}

theorem capture?_eq (hbody : body.attr "id" = .ok (.str m))
    (hm : x.find? w m = some (.transformer f)) :
    x.capture? body w =
      (Expansion.captureGlobally (.transformer f) (.str m) >>= fun g => pure (some g)) w := by
  have hbound : x.bound? (.str m) w = (.ok (some (.transformer f)), w) :=
    congrArg (fun b => (Except.ok b, w)) hm
  rw [capture?, Act.lift_bind_ok hbody, Act.bind_ok hbound]
  rfl

theorem capture?_of_captured (h : w.Captured f g) (hbody : body.attr "id" = .ok (.str m))
    (hm : x.find? w m = some (.transformer f)) : x.capture? body w = (.ok (some g), w) := by
  rw [capture?_eq hbody hm, Act.bind_ok (Expansion.captureGlobally_of_eq_some h.nameOf (.str m))]
  rfl

theorem captured_capture? (hw : w.Orderly) (hbody : body.attr "id" = .ok (.str m))
    (hm : x.find? w m = some (.transformer f)) :
    ∃ g t, x.capture? body w = (.ok (some g), t) ∧ t.Captured f g := by
  obtain ⟨g, t, hcapture, hcaptured⟩ := Expansion.captured_captureGlobally hw f (.str m)
  refine ⟨g, t, ?_, hcaptured⟩
  rw [capture?_eq hbody hm, Act.bind_ok hcapture]
  rfl

end Expander

end TreeMacros
