import TreeMacros.Proofs.SoundTrees

/-!
# Items that invoke macros

How detection goes through the items of a block header and through decorators, and how an item that
invokes a macro is taken out. What is detected depends on the shapes of the items alone.
-/

namespace TreeMacros

variable {rest : List Value}

/-- Nothing has been called, and the same macros can be invoked in the same mode. -/
structure World.Steady (w t : World) : Prop where
  log : t.log = w.log
  globals : t.globals = w.globals
  recursive : t.recursive = w.recursive

instance : World.AdmitsJournal World.Steady where
  refl _ := ⟨rfl, rfl, rfl⟩
  trans _ _ _ h h' := ⟨h'.log.trans h.log, h'.globals.trans h.globals,
    h'.recursive.trans h.recursive⟩
  journal _ _ := ⟨rfl, rfl, rfl⟩

namespace Expander

open Value

variable {x : Expander} {w t : World} {form : Form} {item u : Value} {items : List Value}

/-! ## Items -/

def headOf? (form : Form) (item : Value) : Option Value :=
  match form with
  | .block =>
    match item with
    | .node .withItem as => Attrs.get? as "context_expr"
    | _ => .none
  | _ => some item

/-- How detection reads an item. -/
def itemReading? (form : Form) (item : Value) : Option (Option (String × List Value)) :=
  (headOf? form item).bind reading?

theorem headOf?_shape (form : Form) (item : Value) :
    headOf? form item.shape = (headOf? form item).map shape := by
  cases form with
  | block =>
    cases item with
    | node k as =>
      rw [shape_node]
      by_cases hk : k = .withItem
      · subst hk
        exact get?_shape (by decide)
      · rw [headOf?.eq_def, headOf?.eq_def]
        simp [hk]
    | list xs => rw [shape_list]; rfl
    | _ => rfl
  | _ => rfl

theorem itemReading?_shape (form : Form) (item : Value) : itemReading? form item.shape =
    (itemReading? form item).map (Option.map fun c => (c.1, c.2.map shape)) := by
  rw [itemReading?, itemReading?, headOf?_shape, Option.bind_map, Option.map_bind]
  exact congrArg _ (funext reading?_shape)

def uses (x : Expander) (w : World) (form : Form) (item : Value) : Bool :=
  match itemReading? form item with
  | some (some (name, args)) => (x.known? w name).any fun b => args.isEmpty || b.isParametric
  | _ => false

theorem uses_shape (x : Expander) (w : World) (form : Form) (item : Value) :
    x.uses w form item.shape = x.uses w form item := by
  unfold uses
  rw [itemReading?_shape]
  rcases itemReading? form item with _ | _ | ⟨name, args⟩
  · rfl
  · rfl
  · simp

theorem uses_congr (h : x.known? t = x.known? w) : x.uses t form = x.uses w form := by
  funext item
  unfold uses
  rw [h]

theorem itemCandidate_of_headOf? (hform : form = .block ∨ form = .decorator)
    (h : headOf? form item = some u) : itemCandidate item form = .ok u := by
  rcases hform with rfl | rfl
  · cases item with
    | node k as =>
      by_cases hk : k = .withItem
      · subst hk
        exact attr_of_get? h
      · rw [headOf?.eq_def] at h
        simp [hk] at h
    | _ => cases h
  · cases h
    rfl

def KnowsMacros (x : Expander) (w : World) : Prop :=
  ∀ name b, x.known? w name = some b → ∃ m, b = .transformer m

theorem isMacroItem_run {c : Option (String × List Value)}
    (hform : form = .block ∨ form = .decorator) (hmacros : x.KnowsMacros w)
    (hread : itemReading? form item = some c) (hline : item.givesSoundLine) :
    ∃ t, x.isMacroItem form item w = (.ok (x.uses w form item), t) ∧ World.Steady w t := by
  obtain ⟨u, hu, hread'⟩ := Option.bind_eq_some_iff.mp hread
  unfold isMacroItem uses
  rw [hread, Act.lift_bind_ok (itemCandidate_of_headOf? hform hu), Act.lift_bind_ok (candidate?_of_reading? hread')]
  rcases c with _ | ⟨name, args⟩
  · exact ⟨w, rfl, ⟨rfl, rfl, rfl⟩⟩
  · have hcall (s : World) (hs : x.known? s name = x.known? w name) :
        x.isCall (.str name) (.list args) form s = (.ok ((x.known? w name).any fun b =>
          args.isEmpty || b.isParametric), s) := by
      rw [isCall_run, hs]
      cases x.known? w name with
      | none => rfl
      | some b => rcases hform with rfl | rfl <;> simp [Value.isTruthy]
    simp only [Option.map_some]
    rw [Act.bind_ok (invocable?_str x name w)]
    cases hb : x.known? w name with
    | none => exact ⟨w, rfl, ⟨rfl, rfl, rfl⟩⟩
    | some b =>
      obtain ⟨m, rfl⟩ := hmacros name b hb
      rw [hb] at hcall
      dsimp only
      split
      next hmisused =>
        have hnumber : ((item.attr? "lineno").getD (.int 0)).toInt?.isNone = false := by
          unfold givesSoundLine at hline
          cases hget : item.attr? "lineno" with
          | none => rfl
          | some line => simpa [hget] using hline
        have hname : (Binding.transformer m).fullName = .ok m.fullName := rfl
        rw [Act.lift_bind_ok hname, if_neg (by simp [hnumber])]
        exact ⟨_, Eq.trans (Act.bind_ok rfl) (hcall _ hb), ⟨rfl, rfl, rfl⟩⟩
      · exact ⟨w, hcall w hb, ⟨rfl, rfl, rfl⟩⟩

theorem KnowsMacros.congr (h : x.KnowsMacros w) (hknown : x.known? t = x.known? w) :
    x.KnowsMacros t := by
  intro name b hb
  rw [hknown] at hb
  exact h name b hb

theorem detect_run (hform : form = .block ∨ form = .decorator) (hmacros : x.KnowsMacros w)
    (hread : ∀ i ∈ items, (itemReading? form i).isSome)
    (hlines : ∀ i ∈ items, i.givesSoundLine) :
    ∃ t, x.detect form (.list items) w = (.ok (items.map fun i => (i, x.uses w form i)), t) ∧
      World.Steady w t := by
  have hstep : ∀ s, World.Steady w s → ∃ t, items.mapM
      (fun i => x.isMacroItem form i >>= fun b => pure (i, b)) s =
        (.ok (items.map fun i => (i, x.uses w form i)), t) ∧ World.Steady w t := by
    induction items with
    | nil => exact fun s hs => ⟨s, rfl, hs⟩
    | cons i items ih =>
      intro s hs
      have hknown := known?_of_globals (x := x) hs.globals
      obtain ⟨c, hc⟩ := Option.isSome_iff_exists.mp (hread i (by simp))
      obtain ⟨m, hm, hsteady⟩ := isMacroItem_run hform (hmacros.congr hknown) hc
        (hlines i (by simp))
      rw [uses_congr hknown] at hm
      obtain ⟨t, ht, hsteady'⟩ := ih (fun j hj => hread j (by simp [hj]))
        (fun j hj => hlines j (by simp [hj])) m (IsTrans.trans _ _ _ hs hsteady)
      refine ⟨t, ?_, hsteady'⟩
      rw [List.mapM_cons, Act.bind_ok (Eq.trans (Act.bind_ok hm) rfl), Act.bind_ok ht]
      rfl
  obtain ⟨t, ht, hsteady⟩ := hstep w ⟨rfl, rfl, rfl⟩
  exact ⟨t, ht, hsteady⟩

/-- The item is a name that is sliced. -/
def slices (form : Form) (item : Value) : Bool := (headOf? form item).any slicesName

/-- An item as the grammar has them: detection can read it unless it is a name that is sliced. -/
def Legible (form : Form) (item : Value) : Prop :=
  ∃ head, headOf? form item = some head ∧
    if head.slicesName then ∃ e, e.kind = .attributeError ∧ head.candidate? = .error e
    else ∃ c, head.reading? = some c

theorem Legible.isSome (h : Legible form item) (hs : slices form item = false) :
    (itemReading? form item).isSome := by
  obtain ⟨head, hhead, h⟩ := h
  simp only [slices, hhead, Option.any_some] at hs
  rw [if_neg (by simp [hs])] at h
  obtain ⟨c, hc⟩ := h
  simp [itemReading?, hhead, hc]

theorem Legible.isMacroItem (h : Legible form item) (hform : form = .block ∨ form = .decorator)
    (hs : slices form item) (w : World) :
    ∃ e, e.kind = .attributeError ∧ x.isMacroItem form item w = (.error e, w) := by
  obtain ⟨head, hhead, h⟩ := h
  simp only [slices, hhead, Option.any_some] at hs
  rw [if_pos hs] at h
  obtain ⟨e, he, hcandidate⟩ := h
  refine ⟨e, he, ?_⟩
  rw [Expander.isMacroItem, Act.lift_bind_ok (itemCandidate_of_headOf? hform hhead), hcandidate]
  rfl

/-- Detection fails at the first name that is sliced, before anything is called. -/
theorem detect_of_slices (hform : form = .block ∨ form = .decorator) (hmacros : x.KnowsMacros w)
    (hread : ∀ i ∈ items, Legible form i) (hlines : ∀ i ∈ items, i.givesSoundLine)
    (hsliced : items.any (slices form)) :
    ∃ e t, e.kind = .attributeError ∧ x.detect form (.list items) w = (.error e, t) ∧
      World.Steady w t := by
  have hstep : ∀ s, World.Steady w s → ∃ e t, e.kind = .attributeError ∧ items.mapM
      (fun i => x.isMacroItem form i >>= fun b => pure (i, b)) s = (.error e, t) ∧
        World.Steady w t := by
    induction items with
    | nil => cases hsliced
    | cons i items ih =>
      intro s hs
      rw [List.mapM_cons]
      cases hi : slices form i with
      | true =>
        obtain ⟨e, he, hrun⟩ := (hread i (by simp)).isMacroItem (x := x) hform hi s
        exact ⟨e, s, he, Act.bind_error (Act.bind_error hrun), hs⟩
      | false =>
        have hknown := known?_of_globals (x := x) hs.globals
        obtain ⟨c, hc⟩ := Option.isSome_iff_exists.mp ((hread i (by simp)).isSome hi)
        obtain ⟨m, hm, hsteady⟩ := isMacroItem_run hform (hmacros.congr hknown) hc
          (hlines i (by simp))
        obtain ⟨e, t, he, ht, hsteady'⟩ := ih (fun j hj => hread j (by simp [hj]))
          (fun j hj => hlines j (by simp [hj])) (by simpa [hi] using hsliced) m
          (IsTrans.trans _ _ _ hs hsteady)
        refine ⟨e, t, he, ?_, hsteady'⟩
        rw [Act.bind_ok (Eq.trans (Act.bind_ok hm) rfl), Act.bind_error ht]
  obtain ⟨e, t, he, ht, hsteady⟩ := hstep w ⟨rfl, rfl, rfl⟩
  exact ⟨e, t, he, ht, hsteady⟩

/-! ## Taking out an item -/

def ordered {α : Type} (form : Form) (items : List α) : List α :=
  match form with
  | .block => items
  | _ => items.reverse

/-- Taking out the first item that satisfies `p`, in the order of the form, leaves `rest`. -/
structure Takes (form : Form) (p : Value → Bool) (items : List Value) (item : Value)
    (rest : List Value) : Prop where
  first : ordered form (items.filter p) = item :: ordered form (rest.filter p)
  others : rest.filter (!p ·) = items.filter (!p ·)
  sublist : rest.Sublist items

theorem Takes.mem {p : Value → Bool} (h : Takes form p items item rest) :
    item ∈ items ∧ p item := by
  have hmem : item ∈ ordered form (items.filter p) := by rw [h.first]; simp
  have hfilter : item ∈ items.filter p := by
    unfold ordered at hmem
    split at hmem
    · exact hmem
    · exact List.mem_reverse.mp hmem
  exact ⟨List.mem_of_mem_filter hfilter, List.of_mem_filter hfilter⟩

theorem takes_of_popFirst {p : Value → Bool}
    (h : popFirst (items.map fun i => (i, p i)) = some (item, rest)) :
    Takes .block p items item rest := by
  induction items generalizing rest with
  | nil => cases h
  | cons i items ih =>
    rw [List.map_cons] at h
    cases hi : p i with
    | true =>
      rw [hi, popFirst, List.map_map] at h
      cases h
      have hid : items.map ((·.1) ∘ fun i => (i, p i)) = items := List.map_id items
      rw [hid]
      exact ⟨by simp [ordered, hi], by simp [hi], List.sublist_cons_self _ _⟩
    | false =>
      rw [hi, popFirst] at h
      obtain ⟨⟨first, rest'⟩, hpop, h⟩ := Option.map_eq_some_iff.mp h
      cases h
      obtain ⟨hfirst, hothers, hsublist⟩ := ih hpop
      refine ⟨?_, ?_, hsublist.cons_cons i⟩
      · simpa [ordered, hi] using hfirst
      · simpa [hi] using hothers

theorem takes_of_popLast {p : Value → Bool}
    (h : popLast (items.map fun i => (i, p i)) = some (item, rest)) :
    Takes .decorator p items item rest := by
  rw [popLast, ← List.map_reverse] at h
  obtain ⟨⟨first, rest'⟩, hpop, h⟩ := Option.map_eq_some_iff.mp h
  cases h
  obtain ⟨hfirst, hothers, hsublist⟩ := takes_of_popFirst hpop
  refine ⟨?_, ?_, ?_⟩
  · simpa [ordered, List.filter_reverse] using hfirst
  · rw [List.filter_reverse, hothers, List.filter_reverse, List.reverse_reverse]
  · simpa using hsublist.reverse

end Expander

end TreeMacros
