import TreeMacros.Import.Macros
import TreeMacros.Proofs.Passes

/-!
# Loading modules

Loading a module changes what is loaded and nothing else, also if it fails, and a dialect that a
module is found to define is one that some module was written with or that comes with the library.
-/

namespace TreeMacros

open Act (Keeps keeps_pure keeps_throw keeps_get keeps_lift Ensures ensures_pure ensures_throw)

variable {bs members bound bound' : Bindings} {name filename module : String} {statement : Value}
  {allowLocal : Bool}

namespace World

/-- The second state is the first, but for the modules that are loaded. -/
def LoadsOnly (w t : World) : Prop := ∃ made loaded executed, t = { w with made, loaded, executed }

instance : IsPreorder World LoadsOnly where
  refl w := ⟨w.made, w.loaded, w.executed, rfl⟩
  trans := by
    rintro w _ _ ⟨_, _, _, rfl⟩ ⟨made, loaded, executed, rfl⟩
    exact ⟨made, loaded, executed, rfl⟩

end World

namespace Import

open World (LoadsOnly)

theorem keeps_makeMember (m : Member) : Keeps LoadsOnly (makeMember m) := by
  cases m with
  | transformer s =>
    cases s with
    | builtIn group name =>
      simp only [makeMember, MacroSource.make]
      split
      · exact keeps_pure _
      · exact keeps_throw _
    | scripted d =>
      have hmake : Keeps LoadsOnly (Expansion.make d) := fun w => ⟨_, w.loaded, w.executed, rfl⟩
      exact hmake.bind fun _ => keeps_pure _
  | dialect d => exact keeps_pure _
  | value v => exact keeps_pure _

theorem keeps_setLoaded (name : String) (bs : Bindings) : Keeps LoadsOnly (setLoaded name bs) :=
  fun w => ⟨w.made, _, w.executed, rfl⟩

theorem keeps_execute (name : String) (source : ModuleSource) (old : Bindings) :
    Keeps LoadsOnly (execute name source old) := by
  have hnote (e : Execution) : Keeps LoadsOnly
      (modify fun w => { w with executed := w.executed ++ [e] } : Expansion Unit) :=
    fun w => ⟨w.made, w.loaded, _, rfl⟩
  refine keeps_get.bind fun w => Keeps.ite ((hnote _).bind fun _ => ?_) ?_
  all_goals
    cases source.failure with
    | some e => exact keeps_throw e
    | none =>
      refine Keeps.bind (Keeps.mapM fun e _ => ?_) fun _ => keeps_pure _
      exact (keeps_makeMember e.2).bind fun _ => keeps_pure _

theorem keeps_loadHere (name : String) : Keeps LoadsOnly (loadHere name) := by
  refine keeps_get.bind fun w => ?_
  split
  · exact keeps_throw _
  · refine (keeps_execute _ _ _).bind fun bs => (keeps_setLoaded _ _).bind fun _ => ?_
    split
    · refine keeps_get.bind fun w => ?_
      split
      · exact (keeps_setLoaded _ _).bind fun _ => keeps_pure _
      · exact keeps_pure _
    · exact keeps_pure _

theorem keeps_loadAt (depth : Nat) (name : String) : Keeps LoadsOnly (loadAt depth name) := by
  induction depth generalizing name with
  | zero => exact keeps_throw _
  | succ depth ih =>
    refine keeps_get.bind fun w => ?_
    split
    · exact keeps_pure _
    · split
      · exact keeps_loadHere name
      · refine (ih _).bind fun _ => keeps_get.bind fun w => ?_
        split
        · exact keeps_pure _
        · exact keeps_get.bind fun w => (keeps_loadHere name).ite (keeps_throw _)

theorem keeps_load (name : String) : Keeps LoadsOnly (load name) :=
  (keeps_throw _).ite (keeps_loadAt _ name)

theorem keeps_reload (name : String) : Keeps LoadsOnly (reload name) := by
  refine keeps_get.bind fun w => keeps_get.bind fun t => ?_
  split
  · exact (keeps_execute _ _ _).bind fun bs => (keeps_setLoaded _ _).bind fun _ => keeps_pure _
  · exact keeps_pure _
  · exact keeps_throw _

theorem keeps_loadFor (statement : Value) (filename name : String) :
    Keeps LoadsOnly (loadFor statement filename name) := by
  have hattempt : Keeps LoadsOnly (Act.attempt (load name)) := keeps_load name
  refine hattempt.bind fun r => ?_
  cases r with
  | ok bs => exact keeps_pure _
  | error e => exact (keeps_throw _).ite (keeps_throw _)

theorem keeps_bindingsOf (statement : Value) (filename : String) (again allowLocal : Bool) :
    Keeps LoadsOnly (bindingsOf statement filename again allowLocal) := by
  have hrest (package : Option String) : Keeps LoadsOnly (do
      let name ← moduleName statement filename package
      let members ← loadFor statement filename name
      let members ← if again then reload name else pure members
      let items ← (← statement.attr "names").elements
      let bound : Except Error Bindings :=
        (items.drop 1).foldlM (bindName statement filename name allowLocal members) []
      return (name, ← bound) : Expansion (String × Bindings)) := by
    refine (keeps_lift _).bind fun name => (keeps_loadFor _ _ _).bind fun members => ?_
    refine Keeps.ite ((keeps_reload name).bind fun _ => ?_) ((keeps_pure _).bind fun _ => ?_)
    all_goals
      exact (keeps_lift _).bind fun _ => (keeps_lift _).bind fun _ => (keeps_lift _).bind fun _ =>
        keeps_pure _
  refine (keeps_lift _).bind fun level => Keeps.ite ?_ ((keeps_pure _).bind hrest)
  exact keeps_get.bind fun _ => (keeps_lift _).bind fun _ => (keeps_pure _).bind hrest

/-! ## Dialects in sight -/

end Import

/-- If the binding is to a dialect, it is one with `D`. -/
def Binding.OffersOnly (D : Dialect → Prop) (b : Binding) : Prop := ∀ d, b = .dialect d → D d

/-- All dialects that modules define, before and after they are loaded, are ones with `D`. -/
structure World.OffersOnly (D : Dialect → Prop) (w : World) : Prop where
  modules : ∀ m ∈ w.modules, ∀ e ∈ m.2.members, ∀ d, e.2 = .dialect d → D d
  loaded : ∀ m ∈ w.loaded, ∀ e ∈ m.2, e.2.OffersOnly D

namespace Bindings

theorem mem_of_mem_insert {b : Binding} {e : String × Binding} (h : e ∈ insert bs name b) :
    e ∈ bs ∨ e.2 = b := by
  induction bs with
  | nil => simp_all [insert]
  | cons f bs ih =>
    rw [insert] at h
    split at h
    all_goals rcases List.mem_cons.mp h with rfl | h
    · exact .inr rfl
    · exact .inl (List.mem_cons_of_mem _ h)
    · exact .inl List.mem_cons_self
    · exact (ih h).imp_left (List.mem_cons_of_mem _)

theorem mem_of_mem_insertAll {cs : Bindings} {e : String × Binding} (h : e ∈ insertAll bs cs) :
    e ∈ bs ∨ ∃ f ∈ cs, e.2 = f.2 := by
  induction cs generalizing bs with
  | nil => exact .inl h
  | cons f cs ih =>
    rcases @ih (insert bs f.1 f.2) h with h | ⟨g, hg, he⟩
    · exact (mem_of_mem_insert h).imp_right fun he => ⟨f, List.mem_cons_self, he⟩
    · exact .inr ⟨g, List.mem_cons_of_mem _ hg, he⟩

end Bindings

namespace Import

open World (OffersOnly)

variable {D : Dialect → Prop}

theorem offers_lookup {ms : List (String × Bindings)} (hms : ∀ m ∈ ms, ∀ e ∈ m.2, e.2.OffersOnly D)
    (h : ms.lookup name = some bs) : ∀ e ∈ bs, e.2.OffersOnly D := by
  obtain ⟨l, k, rfl, -⟩ := List.lookup_eq_some_iff.mp h
  exact hms (name, bs) (by simp)

theorem offers_builtInModules (hD : D Dialect.stepExpansion) :
    ∀ m ∈ builtInModules, ∀ e ∈ m.2, e.2.OffersOnly D := by
  have hmacros (ms : List Macro) :
      ∀ e ∈ ms.map fun m => (m.name, Binding.transformer m), e.2.OffersOnly D := by
    intro e he d hd
    obtain ⟨m, -, rfl⟩ := List.mem_map.mp he
    cases hd
  have hstep : (Binding.dialect Dialect.stepExpansion).OffersOnly D := by
    intro d hd
    cases hd
    exact hD
  intro m hm e he
  simp only [builtInModules, List.mem_cons, List.not_mem_nil, or_false] at hm
  rcases hm with rfl | rfl | rfl | rfl
  · cases he
  · exact hmacros _ e he
  · rcases List.mem_append.mp he with he | he
    · exact hmacros _ e he
    · obtain rfl := List.mem_singleton.mp he
      exact hstep
  · obtain rfl := List.mem_singleton.mp he
    exact hstep

theorem offers_loaded? (hD : D Dialect.stepExpansion) {w : World} (hw : w.OffersOnly D)
    (h : loaded? w name = some bs) : ∀ e ∈ bs, e.2.OffersOnly D := by
  unfold loaded? at h
  split at h
  next hl =>
    cases h
    exact offers_lookup hw.loaded hl
  next => exact offers_lookup (offers_builtInModules hD) h

theorem ensures_makeMember {m : Member} (h : ∀ d, m = .dialect d → D d) :
    Ensures (OffersOnly D) (makeMember m) (Binding.OffersOnly D) := by
  cases m with
  | transformer s =>
    cases s with
    | builtIn group name =>
      simp only [makeMember, MacroSource.make]
      split
      · exact ensures_pure fun d hd => by cases hd
      · exact ensures_throw _
    | scripted d =>
      intro w b t hw hrun
      cases hrun
      exact ⟨⟨hw.modules, hw.loaded⟩, fun d hd => by cases hd⟩
  | dialect d =>
    refine ensures_pure fun e he => ?_
    cases he
    exact h d rfl
  | value v => exact ensures_pure fun d hd => by cases hd

theorem ensures_setLoaded (h : ∀ e ∈ bs, e.2.OffersOnly D) :
    Ensures (OffersOnly D) (setLoaded name bs) fun _ => True := by
  intro w _ t hw hrun
  cases hrun
  refine ⟨⟨hw.modules, fun m hm => ?_⟩, trivial⟩
  rcases List.mem_cons.mp hm with rfl | hm
  · exact h
  · exact hw.loaded m (List.mem_filter.mp hm).1

theorem ensures_get_bind {α : Type} {P : World → Prop} {f : World → Expansion α} {Q : α → Prop}
    (h : ∀ w, P w → Ensures P (f w) Q) : Ensures P (get >>= f) Q := by
  intro w a t hw hrun
  rw [Act.bind_ok (Act.get_run w)] at hrun
  exact h w hw w a t hw hrun

theorem ensures_execute {source : ModuleSource} {old : Bindings}
    (hs : ∀ e ∈ source.members, ∀ d, e.2 = .dialect d → D d) (hold : ∀ e ∈ old, e.2.OffersOnly D) :
    Ensures (OffersOnly D) (execute name source old) fun bs => ∀ e ∈ bs, e.2.OffersOnly D := by
  have hnote (e : Execution) : Ensures (OffersOnly D)
      (modify fun w => { w with executed := w.executed ++ [e] } : Expansion Unit) fun _ => True := by
    intro w _ t hw hrun
    cases hrun
    exact ⟨⟨hw.modules, hw.loaded⟩, trivial⟩
  refine ensures_get_bind fun w hw => Ensures.ite ((hnote _).bind fun _ _ => ?_) ?_
  all_goals
    cases source.failure with
    | some e => exact ensures_throw e
    | none =>
      refine Ensures.bind (Ensures.mapM (S := fun e => e.2.OffersOnly D) fun e he => ?_)
        fun new hnew => ensures_pure fun e he => ?_
      · exact (ensures_makeMember (hs e he)).bind fun _ hb => ensures_pure hb
      · rcases Bindings.mem_of_mem_insertAll he with he | ⟨g, hg, he⟩
        · exact hold e he
        · rw [he]
          exact hnew g hg

theorem ensures_loadHere (hD : D Dialect.stepExpansion) (name : String) :
    Ensures (OffersOnly D) (loadHere name) fun bs => ∀ e ∈ bs, e.2.OffersOnly D := by
  refine ensures_get_bind fun w hw => ?_
  split
  · exact ensures_throw _
  next source hsource =>
    obtain ⟨l, k, hmods, -⟩ := List.lookup_eq_some_iff.mp hsource
    have hs := hw.modules (name, source) (by simp [hmods])
    refine (ensures_execute hs (by simp)).bind fun bs hbs =>
      (ensures_setLoaded hbs).bind fun _ _ => ?_
    split
    · refine ensures_get_bind fun t ht => ?_
      split
      next old hold =>
        refine (ensures_setLoaded fun e he => ?_).bind fun _ _ => ensures_pure hbs
        rcases Bindings.mem_of_mem_insert he with he | he
        · exact offers_loaded? hD ht hold e he
        · intro d hd
          rw [he] at hd
          cases hd
      next => exact ensures_pure hbs
    · exact ensures_pure hbs

theorem ensures_loadAt (hD : D Dialect.stepExpansion) (depth : Nat) (name : String) :
    Ensures (OffersOnly D) (loadAt depth name) fun bs => ∀ e ∈ bs, e.2.OffersOnly D := by
  induction depth generalizing name with
  | zero => exact ensures_throw _
  | succ depth ih =>
    refine ensures_get_bind fun w hw => ?_
    split
    next bs hbs => exact ensures_pure (offers_loaded? hD hw hbs)
    next =>
      split
      · exact ensures_loadHere hD name
      · refine (ih _).bind fun _ _ => ensures_get_bind fun t ht => ?_
        split
        next bs hbs => exact ensures_pure (offers_loaded? hD ht hbs)
        next => exact ensures_get_bind fun _ _ => (ensures_loadHere hD name).ite (ensures_throw _)

theorem loadFor_eq_ok {w t : World} (h : loadFor statement filename name w = (.ok bs, t)) :
    name.isEmpty = false ∧ load name w = (.ok bs, t) := by
  obtain ⟨r, u, hattempt, hrest⟩ := Act.bind_eq_ok.mp h
  match hload : load name w with
  | (.error e, u') =>
    simp only [Act.attempt, hload] at hattempt
    cases hattempt
    simp only at hrest
    split at hrest <;> cases hrest
  | (.ok bs', u') =>
    simp only [Act.attempt, hload] at hattempt
    cases hattempt
    cases hrest
    refine ⟨?_, rfl⟩
    cases hname : name.isEmpty with
    | false => rfl
    | true =>
      rw [load, if_pos hname] at hload
      cases hload

theorem bindName_eq_ok {item : Value}
    (h : bindName statement filename module allowLocal members bound item = .ok bound') :
    ∃ key name b, Bindings.get? members name = some b ∧ bound' = bound.insert key b := by
  obtain ⟨_, -, h⟩ := except_bind_eq_ok.mp h
  simp only at h
  split at h
  · cases h
  · obtain ⟨as, -, h⟩ := except_bind_eq_ok.mp h
    obtain ⟨name, -, h⟩ := except_bind_eq_ok.mp h
    split at h
    · split at h
      next b hb =>
        cases h
        exact ⟨_, _, b, hb, rfl⟩
      next => cases h
    · cases h

theorem of_bindNames {P : Bindings → Prop} {items : List Value}
    (hinsert : ∀ bound key name b, Bindings.get? members name = some b → P bound →
      P (Bindings.insert bound key b)) (hb : P bound)
    (h : items.foldlM (bindName statement filename module allowLocal members) bound = .ok bound') :
    P bound' := by
  induction items generalizing bound with
  | nil =>
    cases h
    exact hb
  | cons item items ih =>
    rw [List.foldlM_cons] at h
    obtain ⟨next, hnext, h⟩ := except_bind_eq_ok.mp h
    obtain ⟨key, name, b, hget, rfl⟩ := bindName_eq_ok hnext
    exact ih (hinsert _ key name b hget hb) h

theorem offers_bindNames {items : List Value} (hm : ∀ e ∈ members, e.2.OffersOnly D)
    (hb : ∀ e ∈ bound, e.2.OffersOnly D)
    (h : items.foldlM (bindName statement filename module allowLocal members) bound = .ok bound') :
    ∀ e ∈ bound', e.2.OffersOnly D := by
  refine of_bindNames (P := fun bs => ∀ e ∈ bs, e.2.OffersOnly D)
    (fun bound key name b hget hb e he => ?_) hb h
  rcases Bindings.mem_of_mem_insert he with he | he
  · exact hb e he
  · obtain ⟨l, k, rfl, -⟩ := List.lookup_eq_some_iff.mp hget
    rw [he]
    exact hm _ (List.mem_append_right l List.mem_cons_self)

theorem bindingsOf_eq_ok {again : Bool} {w t : World}
    (h : bindingsOf statement filename again allowLocal w = (.ok (module, bound), t)) :
    ∃ loaded u members items, loadFor statement filename module w = (.ok loaded, u) ∧
      (if again then reload module else pure loaded : Expansion Bindings) u = (.ok members, t) ∧
      List.foldlM (bindName statement filename module allowLocal members) [] items = .ok bound := by
  obtain ⟨level, -, h⟩ := Act.lift_bind_eq_ok.mp h
  simp only at h
  -- With the package or without one, what comes after it is the same.
  split at h
  case' isTrue =>
    obtain ⟨_, _, hget, h⟩ := Act.bind_eq_ok.mp h
    cases hget
    obtain ⟨package, -, h⟩ := Act.lift_bind_eq_ok.mp h
  all_goals
    rw [pure_bind] at h
    obtain ⟨name, -, h⟩ := Act.lift_bind_eq_ok.mp h
    obtain ⟨loaded, u, hload, h⟩ := Act.bind_eq_ok.mp h
    cases again
  all_goals
    obtain ⟨members, _, hmembers, h⟩ := Act.bind_eq_ok.mp h
    obtain ⟨_, -, h⟩ := Act.lift_bind_eq_ok.mp h
    obtain ⟨items, -, h⟩ := Act.lift_bind_eq_ok.mp h
    obtain ⟨bound, hbound, h⟩ := Act.lift_bind_eq_ok.mp h
    cases h
    exact ⟨loaded, u, members, _, hload, hmembers, hbound⟩

/-- What a dialect import binds: the module has a name, and its dialects are among those in
sight. -/
theorem ensures_bindingsOf (hD : D Dialect.stepExpansion) (statement : Value) (filename : String)
    (allowLocal : Bool) :
    Ensures (OffersOnly D) (bindingsOf statement filename false allowLocal)
      fun r => r.1.isEmpty = false ∧ ∀ e ∈ r.2, e.2.OffersOnly D := by
  intro w r t hw hrun
  obtain ⟨members, u, _, _, hload, hmembers, hbound⟩ := bindingsOf_eq_ok hrun
  cases hmembers
  obtain ⟨hname, hload⟩ := loadFor_eq_ok hload
  rw [load, if_neg (by simp [hname])] at hload
  obtain ⟨ht, hmembers⟩ := ensures_loadAt hD _ r.1 w members t hw hload
  exact ⟨ht, hname, offers_bindNames hmembers (by simp) hbound⟩

end Import

end TreeMacros
