import Mathlib.Data.Nat.Find
import TreeMacros.Proofs.Capturing

/-!
# Names that are asked for one after another

Fresh names and global names of macros are asked for in any order. The supply always comes to a
name, and no name is given out twice, except that a macro keeps its global name. The numbers in the
names may repeat themselves, as long as new ones keep coming up.
-/

namespace TreeMacros

open Bindings (nameOf? insert get?)

/-- New numbers keep coming up: each rest of the stream has one that does not stand before it. -/
def Renews (number : Nat → Nat) : Prop := ∀ i, ∃ j, i ≤ j ∧ ∀ k < i, number k ≠ number j

def NumberSource.ofStream (number : Nat → Nat) (h : Renews number) : NumberSource where
  number := number
  renewal i := Nat.find (h i)
  le_renewal i := (Nat.find_spec (h i)).1
  number_renewal i := (Nat.find_spec (h i)).2

namespace NameSupply

/-- A name is drawn from the supply: numbers are taken up to the first one that makes a new name. -/
def Draws (number : Nat → Nat) (base : Value) (s : NameSupply) (sym : String) (t : NameSupply) :
    Prop :=
  ∃ i, s.taken ≤ i ∧ (∀ j, s.taken ≤ j → j < i → name (baseOf base) (number j) ∈ s.used) ∧
    sym = name (baseOf base) (number i) ∧ sym ∉ s.used ∧ t.taken = i + 1 ∧ t.used = sym :: s.used

theorem draws_fresh {number : Nat → Nat} {s : NameSupply} (h : s.source.number = number)
    (base : Value) : Draws number base s (s.fresh base).1 (s.fresh base).2 := by
  obtain ⟨i, hle, hused, hnew, hname, -, htaken, hafter⟩ := s.fresh_spec base
  subst h
  refine ⟨i, hle, hused, hname, ?_, htaken, hafter⟩
  rw [hname]
  exact hnew

end NameSupply

/-- A request for a fresh name, or for the global name of a macro. -/
inductive NameRequest where
  | fresh (base : Value)
  | capture (f : Macro) (base : Value)

namespace NameRequest

/-- The macro that is captured, if one is. -/
def identity? : NameRequest → Option Identity
  | fresh _ => none
  | capture f _ => some f.identity

def serve : NameRequest → Expansion String
  | fresh base => Expansion.fresh base
  | capture f base => Expansion.captureGlobally (.transformer f) base

/-- What a request can do: a fresh name is drawn, a name is known, or a fresh name is drawn and
bound. -/
theorem serve_cases (r : NameRequest) (w : World) :
    (∃ base, r = fresh base ∧
      r.serve w = (.ok (w.names.fresh base).1, { w with names := (w.names.fresh base).2 })) ∨
    (∃ f base g, r = capture f base ∧ nameOf? w.globals (.transformer f) = some g ∧
      r.serve w = (.ok g, w)) ∨
    (∃ f base, r = capture f base ∧ nameOf? w.globals (.transformer f) = none ∧
      r.serve w = (.ok (w.names.fresh base).1, { w with
        names := (w.names.fresh base).2
        globals := insert w.globals (w.names.fresh base).1 (.transformer f) })) := by
  cases r with
  | fresh base => exact .inl ⟨base, rfl, rfl⟩
  | capture f base =>
    right
    cases hname : nameOf? w.globals (.transformer f) with
    | some g => exact .inl ⟨f, base, g, rfl, hname, Expansion.captureGlobally_of_eq_some hname base⟩
    | none => exact .inr ⟨f, base, rfl, hname, Expansion.captureGlobally_of_eq_none hname base⟩

theorem keeps_serve {R : World → World → Prop} [World.Admits R] (r : NameRequest) :
    Act.Keeps R r.serve := by
  cases r with
  | fresh base => exact keeps_fresh base
  | capture f base => exact keeps_captureGlobally (b := .transformer f) rfl base

end NameRequest

/-- A request that was served, and the state in which it was. -/
structure Served where
  request : NameRequest
  before : World

namespace Served

def answer (s : Served) : Except Error String := (s.request.serve s.before).1

def after (s : Served) : World := (s.request.serve s.before).2

def all (w : World) : List NameRequest → List Served
  | [] => []
  | r :: rs => ⟨r, w⟩ :: all (r.serve w).2 rs

variable {number : Nat → Nat} {w : World} {rs : List NameRequest} {s t : Served} {g key : String}

theorem of_mem_all {P : World → Prop} (hstep : ∀ (r : NameRequest) (w : World), P w → P (r.serve w).2)
    (hw : P w) (ht : t ∈ all w rs) : P t.before := by
  induction rs generalizing w with
  | nil => cases ht
  | cons r rs ih =>
    rw [all] at ht
    rcases List.mem_cons.mp ht with rfl | ht
    · exact hw
    · exact ih (hstep r w hw) ht

theorem of_mem_all_after {P : World → Prop}
    (hstep : ∀ (r : NameRequest) (w : World), P w → P (r.serve w).2)
    (hw : P w) (ht : t ∈ all w rs) : P t.after :=
  hstep t.request t.before (of_mem_all hstep hw ht)

/-- States in which names are in order, and the numbers come from a given stream. -/
structure Sound (number : Nat → Nat) (w : World) : Prop where
  orderly : w.Orderly
  source : w.names.source.number = number

theorem sound_serve (r : NameRequest) (w : World) (hw : Sound number w) :
    Sound number (r.serve w).2 := by
  have htidy := (NameRequest.keeps_serve (R := World.Kept) r w).tidy hw.orderly.tidy
  rcases r.serve_cases w with ⟨base, -, heq⟩ | ⟨f, base, g, -, -, heq⟩ | ⟨f, base, -, -, heq⟩
  · rw [heq] at htidy ⊢
    exact ⟨⟨htidy, hw.orderly.distinct, hw.orderly.named⟩, hw.source⟩
  · rw [heq]
    exact hw
  · rw [heq] at htidy ⊢
    refine ⟨⟨htidy, hw.orderly.distinct.insert _ _, ?_⟩, hw.source⟩
    have hne := NameSupply.fresh_ne_empty w.names base
    dsimp only
    rw [Bindings.get?_insert, if_neg hne.symm]
    exact hw.orderly.named

/-- The name has been given out, and not to a macro. -/
structure Reserved (g : String) (w : World) : Prop where
  used : g ∈ w.names.used
  unbound : Bindings.get? w.globals g = none

theorem reserved_serve (r : NameRequest) (w : World) (hw : Reserved g w) :
    Reserved g (r.serve w).2 := by
  have hused (base : Value) : g ∈ (w.names.fresh base).2.used := by
    rw [NameSupply.fresh_used]
    exact List.mem_cons_of_mem _ hw.used
  rcases r.serve_cases w with ⟨base, -, heq⟩ | ⟨f, base, g, -, -, heq⟩ | ⟨f, base, -, -, heq⟩
  · rw [heq]
    exact ⟨hused base, hw.unbound⟩
  · rw [heq]
    exact hw
  · have hne : g ≠ (w.names.fresh base).1 := by
      rintro rfl
      exact NameSupply.fresh_notMem w.names base hw.used
    rw [heq]
    refine ⟨hused base, ?_⟩
    dsimp only
    rw [Bindings.get?_insert, if_neg hne]
    exact hw.unbound

theorem used_serve (r : NameRequest) (w : World) (hw : g ∈ w.names.used) :
    g ∈ (r.serve w).2.names.used := by
  rcases r.serve_cases w with ⟨base, -, heq⟩ | ⟨f, base, g, -, -, heq⟩ | ⟨f, base, -, -, heq⟩
  · rw [heq]
    exact List.mem_cons_of_mem _ hw
  · rw [heq]
    exact hw
  · rw [heq]
    exact List.mem_cons_of_mem _ hw

/-! ## One request -/

/-- What a request gets. A fresh name is drawn, and nothing is bound to it. The global name of a macro
is known already, or it is drawn and bound. -/
def Granted (number : Nat → Nat) (s : Served) : Prop :=
  match s.request with
  | .fresh base => ∃ sym, s.answer = .ok sym ∧
      NameSupply.Draws number base s.before.names sym s.after.names ∧ s.after.globals = s.before.globals
  | .capture f base => ∃ key, s.answer = .ok key ∧
      (∃ b, Bindings.get? s.after.globals key = some b ∧ b.same (.transformer f) = true) ∧
      (s.after = s.before ∨ NameSupply.Draws number base s.before.names key s.after.names ∧
        s.after.globals = s.before.globals ++ [(key, .transformer f)])

theorem granted (hs : Sound number s.before) : s.Granted number := by
  obtain ⟨r, w⟩ := s
  cases r with
  | fresh base => exact ⟨_, rfl, NameSupply.draws_fresh hs.source base, rfl⟩
  | capture f base =>
    obtain ⟨key, t, hrun, hcaptured⟩ := Expansion.captured_captureGlobally hs.orderly f base
    have hanswer : (Served.mk (.capture f base) w).answer = .ok key := congrArg Prod.fst hrun
    have hafter : (Served.mk (.capture f base) w).after = t := congrArg Prod.snd hrun
    refine ⟨key, hanswer, ?_, ?_⟩
    · rw [hafter]
      exact hcaptured.bound
    · cases hname : nameOf? w.globals (.transformer f) with
      | some g =>
        left
        exact congrArg Prod.snd (Expansion.captureGlobally_of_eq_some hname base)
      | none =>
        right
        rw [Expansion.captureGlobally_of_eq_none hname base] at hrun
        cases hrun
        rw [hafter]
        refine ⟨NameSupply.draws_fresh hs.source base, ?_⟩
        exact Bindings.insert_of_get?_eq_none (hs.orderly.tidy.get?_fresh base) _

/-! ## Two requests -/

/-- The name that a request got has been given out afterwards: to the macro that was captured, or to
none. -/
theorem given_after (hs : Sound number s.before) :
    ∃ g, s.answer = .ok g ∧ g ∈ s.after.names.used ∧
      ((s.request.identity? = none ∧ Reserved g s.after) ∨
        ∃ f, s.request.identity? = some f.identity ∧ s.after.Captured f g) := by
  obtain ⟨r, w⟩ := s
  cases r with
  | fresh base =>
    have hused : (w.names.fresh base).1 ∈ (w.names.fresh base).2.used := by
      rw [NameSupply.fresh_used]
      exact List.mem_cons_self
    exact ⟨_, rfl, hused, .inl ⟨rfl, hused, hs.orderly.tidy.get?_fresh base⟩⟩
  | capture f base =>
    obtain ⟨g, t, hrun, hcaptured⟩ := Expansion.captured_captureGlobally hs.orderly f base
    have hafter : (Served.mk (.capture f base) w).after = t := congrArg Prod.snd hrun
    obtain ⟨b, hb, -⟩ := hcaptured.bound
    refine ⟨g, congrArg Prod.fst hrun, ?_, .inr ⟨f, rfl, ?_⟩⟩
    · rw [hafter]
      exact hcaptured.tidy g b hb
    · rw [hafter]
      exact hcaptured

theorem notMem_used_of_fresh (h : s.request.identity? = none) (hanswer : s.answer = .ok g) :
    g ∉ s.before.names.used := by
  obtain ⟨r, w⟩ := s
  cases r with
  | fresh base =>
    obtain rfl : (w.names.fresh base).1 = g := Except.ok.inj hanswer
    exact NameSupply.fresh_notMem w.names base
  | capture f base => cases h

theorem captured_eq_iff {f f' : Macro} {g' : String} (h : w.Captured f g) (h' : w.Captured f' g') :
    g = g' ↔ f.identity = f'.identity := by
  constructor
  · rintro rfl
    obtain ⟨b, hb, hsame⟩ := h.bound
    obtain ⟨b', hb', hsame'⟩ := h'.bound
    obtain rfl : b = b' := Option.some.inj (hb.symm.trans hb')
    cases b with
    | transformer m => exact (beq_iff_eq.mp hsame).symm.trans (beq_iff_eq.mp hsame')
    | _ => cases hsame
  · intro hidentity
    have hsame (b : Binding) : b.same (.transformer f) = b.same (.transformer f') := by
      cases b with
      | transformer m => simp only [Binding.same, hidentity]
      | _ => rfl
    have hname := h.nameOf
    simp only [nameOf?, hsame] at hname
    exact Option.some.inj (hname.symm.trans h'.nameOf)

theorem Reserved.ne {f : Macro} {g' : String} (h : Reserved g w) (h' : w.Captured f g') : g ≠ g' := by
  rintro rfl
  obtain ⟨b, hb, -⟩ := h'.bound
  rw [h.unbound] at hb
  cases hb

/-- Two requests get the same name just if they are for the same macro. -/
theorem answer_eq_iff (hs : Sound number s.before) (ht : t ∈ all s.after rs) :
    s.answer = t.answer ↔ ∃ i, s.request.identity? = some i ∧ t.request.identity? = some i := by
  have hsound : Sound number t.before := of_mem_all sound_serve (sound_serve _ _ hs) ht
  obtain ⟨g, hanswer, hused, hgiven⟩ := given_after hs
  obtain ⟨g', hanswer', -, hgiven'⟩ := given_after hsound
  rw [hanswer, hanswer', Except.ok.injEq]
  -- What is known of the earlier name still holds after the later request.
  rcases hgiven with ⟨hnone, hreserved⟩ | ⟨f, hsome, hcaptured⟩
  · have hlater : Reserved g t.after := reserved_serve _ _ (of_mem_all reserved_serve hreserved ht)
    rcases hgiven' with ⟨hnone', hreserved'⟩ | ⟨f', hsome', hcaptured'⟩
    · have hne : g ≠ g' := by
        rintro rfl
        exact notMem_used_of_fresh hnone' hanswer' (of_mem_all used_serve hused ht)
      simp [hnone, hne]
    · simp [hnone, hlater.ne hcaptured']
  · have hextends : World.Extends s.after t.after :=
      of_mem_all_after (fun r w h => IsTrans.trans _ _ _ h (r.keeps_serve w)) (refl_of _ _) ht
    have hlater := hcaptured.of_extends hextends
    rcases hgiven' with ⟨hnone', hreserved'⟩ | ⟨f', hsome', hcaptured'⟩
    · simp [hnone', (hreserved'.ne hlater).symm]
    · simp [hsome, hsome', captured_eq_iff hlater hcaptured', eq_comm]

/-! ## All requests -/

/-- A name that is bound was bound before, or it was drawn for the macro that it is bound to. -/
theorem bound_of_mem_all {b : Binding} (hw : Sound number w) (hs : s ∈ all w rs)
    (hkey : get? s.after.globals key = some b) :
    get? w.globals key = some b ∨
      ∃ t ∈ all w rs, ∃ f base, t.request = .capture f base ∧ b = .transformer f ∧
        t.answer = .ok key ∧ NameSupply.Draws number base t.before.names key t.after.names := by
  induction rs generalizing w with
  | nil => cases hs
  | cons r rs ih =>
    rw [all] at hs ⊢
    have hstep (h : get? (r.serve w).2.globals key = some b) :
        get? w.globals key = some b ∨
          ∃ f base, r = .capture f base ∧ b = .transformer f ∧ (r.serve w).1 = .ok key ∧
            NameSupply.Draws number base w.names key (r.serve w).2.names := by
      rcases r.serve_cases w with ⟨base, -, heq⟩ | ⟨f, base, g, -, -, heq⟩ | ⟨f, base, hr, -, heq⟩
      · rw [heq] at h
        exact .inl h
      · rw [heq] at h
        exact .inl h
      · rw [heq] at h ⊢
        dsimp only at h
        rw [Bindings.get?_insert] at h
        split at h
        next hnew =>
          subst hnew
          cases h
          exact .inr ⟨f, base, hr, rfl, rfl, NameSupply.draws_fresh hw.source base⟩
        next => exact .inl h
    have hhead (h : get? (r.serve w).2.globals key = some b) :
        get? w.globals key = some b ∨
          ∃ t ∈ Served.mk r w :: all (r.serve w).2 rs, ∃ f base,
            t.request = .capture f base ∧ b = .transformer f ∧ t.answer = .ok key ∧
              NameSupply.Draws number base t.before.names key t.after.names :=
      (hstep h).imp_right fun h => ⟨⟨r, w⟩, List.mem_cons_self, h⟩
    rcases List.mem_cons.mp hs with rfl | hs
    · exact hhead hkey
    · rcases ih (sound_serve r w hw) hs with h | ⟨t, ht, h⟩
      · exact hhead h
      · exact .inr ⟨t, List.mem_cons_of_mem _ ht, h⟩

theorem pairwise_all {P : Served → Served → Prop}
    (h : ∀ s t rs, Sound number s.before → t ∈ all s.after rs → P s t) (hw : Sound number w) :
    (all w rs).Pairwise P := by
  induction rs generalizing w with
  | nil => exact .nil
  | cons r rs ih => exact .cons (fun t ht => h ⟨r, w⟩ t rs hw ht) (ih (sound_serve r w hw))

theorem sound_start (h : Renews number) :
    Sound number (World.start (.ofSource (.ofStream number h))) := by
  refine ⟨⟨?_, List.nodup_nil, rfl⟩, rfl⟩
  rintro name b ⟨⟩

/-- Fresh names and global names of macros are asked for in any order, and the numbers in the names
come from a stream in which new ones keep coming up. Each request is granted. Two of them get the
same name just if they are for the same macro. A name that is bound was drawn for the macro that it
is bound to, and stays bound to it. -/
theorem names_stay_apart (number : Nat → Nat) (h : Renews number) (requests : List NameRequest) :
    let log := all (World.start (.ofSource (.ofStream number h))) requests
    (∀ s ∈ log, s.Granted number) ∧
      log.Pairwise (fun s t => (s.answer = t.answer ↔
        ∃ i, s.request.identity? = some i ∧ t.request.identity? = some i)) ∧
      (∀ s ∈ log, ∀ key b, Bindings.get? s.after.globals key = some b →
        ∃ t ∈ log, ∃ f base, t.request = .capture f base ∧ b = .transformer f ∧
          t.answer = .ok key ∧ NameSupply.Draws number base t.before.names key t.after.names) ∧
      log.Pairwise (fun s t => ∀ key b, Bindings.get? s.after.globals key = some b →
        Bindings.get? t.after.globals key = some b) := by
  have hstart := sound_start h
  refine ⟨fun s hs => ?_, ?_, fun s hs key b hb => ?_, ?_⟩
  · exact granted (of_mem_all sound_serve hstart hs)
  · exact pairwise_all (fun s t rs => answer_eq_iff) hstart
  · rcases bound_of_mem_all hstart hs hb with hnone | hdrawn
    · cases hnone
    · exact hdrawn
  · refine pairwise_all (fun s t rs hs ht key b hb => ?_) hstart
    have hkept : World.Kept s.after t.after :=
      of_mem_all_after (fun r w h => IsTrans.trans _ _ _ h (r.keeps_serve w)) (refl_of _ _) ht
    exact hkept.globals (sound_serve _ _ hs).orderly.tidy key b hb

theorem renews_halves : Renews (fun n => n / 2) := by
  intro i
  refine ⟨2 * i, by omega, fun k hk => ?_⟩
  dsimp only
  omega

/-- The number of a made macro as its only trait. -/
def numbered (n : Nat) : Macro := ⟨.made n, "m", "m", none, false, false, .eager fun _ => .give .none⟩

theorem names_stay_apart_halves :
    let requests := [NameRequest.fresh (.str "m"), .capture (numbered 0) (.str "m"), .fresh .none,
      .capture (numbered 1) (.str "m"), .capture (numbered 0) (.str "other")]
    let log := all (World.start (.ofSource (.ofStream _ renews_halves))) requests
    log.length = 5 ∧ log.Pairwise (fun s t => (s.answer = t.answer ↔
      ∃ i, s.request.identity? = some i ∧ t.request.identity? = some i)) :=
  ⟨rfl, (names_stay_apart _ renews_halves _).2.1⟩

end Served

end TreeMacros
