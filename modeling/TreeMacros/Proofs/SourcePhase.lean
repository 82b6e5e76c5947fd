import TreeMacros.Dialect.Expander
import TreeMacros.Proofs.Loading
import TreeMacros.Proofs.Steps

/-!
# Transforming the text of a module

In the source phase the dialect imports of a text are taken up one after the other. What the phase
comes to is given by the imports that are found, as long as the transformers leave these alone. The
text that the phase ends with is not the one that is parsed afterwards.
-/

namespace TreeMacros

open Expansion (parse note)
open Act (attempt bind_eq_ok bind_ok get_run)

variable {w : World} {fuel : Nat} {text : String} {v : Value} {found done todo : List String}

namespace Act

variable {σ α β γ : Type}

theorem Keeps.foldlM {R : σ → σ → Prop} [IsPreorder σ R] {f : β → γ → Act σ β} {xs : List γ}
    (h : ∀ b, ∀ x ∈ xs, Keeps R (f b x)) (b : β) : Keeps R (xs.foldlM f b) := by
  induction xs generalizing b with
  | nil => exact keeps_pure b
  | cons x xs ih =>
    rw [List.foldlM_cons]
    exact (h b x (by simp)).bind fun c => ih (fun b y hy => h b y (by simp [hy])) c

theorem Keeps.update {R : σ → σ → Prop} [IsPreorder σ R] {f : σ → σ} {act : Act σ α}
    (hf : ∀ s, R s (f s)) (h : Keeps R act) :
    Keeps R (do let s ← get; set (f s); act : Act σ α) :=
  fun s => IsTrans.trans _ _ _ (hf s) (h (f s))

theorem Ensures.foldlM {P : σ → Prop} {Q : β → Prop} {f : β → γ → Act σ β} {xs : List γ}
    (h : ∀ b, Q b → ∀ x ∈ xs, Ensures P (f b x) Q) {b : β} (hb : Q b) :
    Ensures P (xs.foldlM f b) Q := by
  induction xs generalizing b with
  | nil => exact ensures_pure hb
  | cons x xs ih =>
    rw [List.foldlM_cons]
    exact (h b hb x (by simp)).bind fun c hc => ih (fun b hb y hy => h b hb y (by simp [hy])) hc

theorem Ensures.update {P : σ → Prop} {Q : α → Prop} {f : σ → σ} {act : Act σ α}
    (hf : ∀ s, P s → P (f s)) (h : Ensures P act Q) :
    Ensures P (do let s ← get; set (f s); act : Act σ α) Q :=
  fun s a t hs hrun => h (f s) a t (hf s hs) hrun

theorem ensures_bind_throw {P : σ → Prop} {Q : β → Prop} {x : Act σ α} {e : α → Error} :
    Ensures P (x >>= fun a => (throw (e a) : Act σ β)) Q := by
  intro s b t _ h
  obtain ⟨a, u, -, h⟩ := bind_eq_ok.mp h
  cases h

theorem bind_congr_run {x y : Act σ α} {f g : α → Act σ β} {s : σ} (h : x s = y s)
    (hfg : ∀ a t, y s = (.ok a, t) → f a t = g a t) : (x >>= f) s = (y >>= g) s := by
  match hy : y s with
  | (.ok a, t) =>
    rw [bind_ok (h.trans hy), bind_ok hy]
    exact hfg a t hy
  | (.error e, t) => rw [bind_error (h.trans hy), bind_error hy]

end Act

open Act (Keeps keeps_pure keeps_throw keeps_get keeps_lift Ensures ensures_pure ensures_throw
  ensures_bind_throw)

namespace Dialect

/-- Takes up one dialect import of a text. -/
def takeUp (v : Value) (statement : String) : M Value := do
  modify fun p => { p with seen := p.seen ++ [statement] }
  let module ← lift (Expansion.parse statement)
  let found ← (← module.attr "body").firstElement
  let (name, bound) ← lift (Import.bindingsOf found (← get).filename false false)
  bound.foldlM (fun v (n, b) => applyDialect .source name v n b) v

/-! ## One round of the loop -/

theorem lift_eq_ok {α : Type} {act : Expansion α} {p q : Progress} {a : α}
    (h : lift act p = (.ok a, q)) : ∃ w, act p.world = (.ok a, w) ∧ q = { p with world := w } := by
  match hact : act p.world with
  | (r, w) =>
    simp only [lift, hact] at h
    cases h
    exact ⟨w, rfl, rfl⟩

theorem offersOnly_true (w : World) : w.OffersOnly fun _ => True :=
  ⟨fun _ _ _ _ _ _ => trivial, fun _ _ _ _ _ _ => trivial⟩

theorem isEmpty_of_bindingsOf {statement : Value} {filename : String} {t : World}
    {r : String × Bindings} (h : Import.bindingsOf statement filename false false w = (.ok r, t)) :
    r.1.isEmpty = false :=
  (Import.ensures_bindingsOf trivial statement filename false w r t (offersOnly_true w) h).2.1

theorem loop_done {p : Progress} (h : (importsIn text).find? (fun s => !p.seen.contains s) = none) :
    loop .source (fuel + 1) (.str text) p = (.ok (.str text), p) := by
  have hnext : next .source (.str text) p = (.ok none, p) := by
    have hfind : nextInText (.str text) p = (.ok none, p) := by
      rw [nextInText, bind_ok (get_run p), h]
      rfl
    rw [next, bind_ok hfind]
    rfl
  rw [loop, bind_ok hnext]
  rfl

theorem loop_takeUp {statement : String} {p : Progress}
    (h : (importsIn text).find? (fun s => !p.seen.contains s) = some statement) :
    loop .source (fuel + 1) (.str text) p =
      (takeUp (.str text) statement >>= loop .source fuel) p := by
  have hfind : nextInText (.str text) p = (do
      modify fun p => { p with seen := p.seen ++ [statement] }
      let module ← lift (parse statement)
      return some (← (← module.attr "body").firstElement) : M (Option Value)) p := by
    rw [nextInText, bind_ok (get_run p), h]
    rfl
  rw [loop, next, bind_assoc, Act.bind_congr_run hfind fun _ _ _ => rfl]
  simp only [takeUp, bind_assoc, pure_bind]
  refine Act.bind_congr_run rfl fun _ q _ => Act.bind_congr_run rfl fun module q _ => ?_
  refine Act.bind_congr_run rfl fun body q _ => Act.bind_congr_run rfl fun found q _ => ?_
  refine Act.bind_congr_run rfl fun _ q _ => Act.bind_congr_run rfl fun r t hr => ?_
  obtain ⟨w, hr, -⟩ := lift_eq_ok hr
  have hname := isEmpty_of_bindingsOf hr
  simp only [hname]
  rfl

/-! ## What a round leaves alone -/

/-- File, parser and the imports taken up are the same in both states. -/
structure Undisturbed (p q : Progress) : Prop where
  filename : q.filename = p.filename
  parse : q.world.parse = p.world.parse
  seen : q.seen = p.seen

instance : IsPreorder Progress Undisturbed where
  refl _ := ⟨rfl, rfl, rfl⟩
  trans _ _ _ h h' :=
    ⟨h'.filename.trans h.filename, h'.parse.trans h.parse, h'.seen.trans h.seen⟩

theorem parse_of_some {tree : Value} (h : w.parse text = some tree) :
    parse text w = (.ok tree, w) := by
  rw [parse, bind_ok (get_run w), h]
  rfl

theorem parse_of_none (h : w.parse text = none) :
    parse text w = (.error (.fault (.badSource (Text.Layout.failure text))), w) := by
  rw [parse, bind_ok (get_run w), h]
  rfl

theorem keeps_liftParse (text : String) : Keeps Undisturbed (lift (parse text)) := by
  refine .of_eq fun p => ?_
  cases h : p.world.parse text with
  | some tree => simp only [lift, parse_of_some h]
  | none => simp only [lift, parse_of_none h]

theorem keeps_liftBindingsOf (statement : Value) (filename : String) :
    Keeps Undisturbed (lift (Import.bindingsOf statement filename false false)) := by
  intro p
  have hloads := Import.keeps_bindingsOf statement filename false false p.world
  obtain ⟨made, loaded, executed, hw⟩ := hloads
  have hparse := congrArg World.parse hw
  exact ⟨rfl, hparse, rfl⟩

theorem keeps_tell (message : Progress → String) : Keeps Undisturbed (tell message) :=
  keeps_get.bind fun _ => Keeps.ite (fun _ => ⟨rfl, rfl, rfl⟩) (keeps_pure _)

theorem keeps_applyMethod (phase : Phase) (d : Dialect) (fullName : String) (v : Value) :
    Keeps Undisturbed (applyMethod phase d fullName v) := by
  unfold applyMethod
  split
  · exact keeps_pure _
  · exact keeps_throw _
  · exact Keeps.update (fun _ => ⟨rfl, rfl, rfl⟩) ((keeps_tell _).bind fun _ => keeps_pure _)
  · have hnote (entry : LogEntry) : Keeps Undisturbed (lift (note entry)) :=
      fun _ => ⟨rfl, rfl, rfl⟩
    refine (hnote _).bind fun _ => ?_
    split
    · exact keeps_pure _
    · exact keeps_pure _
    · exact keeps_throw _

theorem keeps_applyDialect (phase : Phase) (module : String) (v : Value) (name : String)
    (b : Binding) : Keeps Undisturbed (applyDialect phase module v name b) := by
  cases b with
  | dialect d =>
    simp only [applyDialect]
    split
    · exact keeps_throw _
    · refine (keeps_applyMethod phase d _ v).bind fun r => ?_
      cases r with
      | none => exact keeps_pure _
      | some r =>
        have hstep : Keeps Undisturbed
            (modify fun p => { p with steps := p.steps + 1 } : M Unit) := fun _ => ⟨rfl, rfl, rfl⟩
        refine Keeps.ite ((keeps_throw _).bind fun _ => ?_) ?_
        all_goals exact hstep.bind fun _ => (keeps_tell _).bind fun _ => keeps_pure _
  | _ => exact keeps_get.bind fun _ => keeps_throw _

theorem undisturbed_takeUp (v : Value) (statement : String) (p : Progress) :
    Undisturbed { p with seen := p.seen ++ [statement] } (takeUp v statement p).2 := by
  have hrest : Keeps Undisturbed (do
      let module ← lift (parse statement)
      let found ← (← module.attr "body").firstElement
      let r ← lift (Import.bindingsOf found (← get).filename false false)
      r.2.foldlM (fun v e => applyDialect .source r.1 v e.1 e.2) v : M Value) := by
    refine (keeps_liftParse statement).bind fun _ => (keeps_lift _).bind fun _ =>
      (keeps_lift _).bind fun _ => keeps_get.bind fun _ => (keeps_liftBindingsOf _ _).bind fun r => ?_
    exact Keeps.foldlM (fun v e _ => keeps_applyDialect .source r.1 v e.1 e.2) v
  exact hrest _

theorem loop_source_ok {r : Value} {p q : Progress} (h : loop .source fuel v p = (.ok r, q)) :
    (∃ s, r = .str s) ∧ q.filename = p.filename ∧ q.world.parse = p.world.parse := by
  induction fuel generalizing v p with
  | zero => cases h
  | succ fuel ih =>
    cases v with
    | str text =>
      cases hfind : (importsIn text).find? fun s => !p.seen.contains s with
      | none =>
        rw [loop_done hfind] at h
        cases h
        exact ⟨⟨text, rfl⟩, rfl, rfl⟩
      | some statement =>
        rw [loop_takeUp hfind] at h
        obtain ⟨u, p', htake, hloop⟩ := bind_eq_ok.mp h
        have hround := undisturbed_takeUp (.str text) statement p
        rw [htake] at hround
        obtain ⟨hr, hfilename, hparse⟩ := ih hloop
        exact ⟨hr, hfilename.trans hround.filename, hparse.trans hround.parse⟩
    | _ => cases h

theorem transform_source_ok {r : Value} {p q : Progress} (h : transform .source v p = (.ok r, q)) :
    (∃ s, r = .str s) ∧ q.filename = p.filename ∧ q.world.parse = p.world.parse := by
  obtain ⟨_, p₁, hbefore, h⟩ := bind_eq_ok.mp h
  obtain ⟨u, p₂, hloop, h⟩ := bind_eq_ok.mp h
  obtain ⟨_, p₃, hafter, h⟩ := bind_eq_ok.mp h
  cases h
  have hstart := (keeps_tell _).of_run hbefore
  obtain ⟨hr, hfilename, hparse⟩ := loop_source_ok hloop
  have hend := (keeps_tell _).of_run hafter
  exact ⟨hr, hend.filename.trans (hfilename.trans hstart.filename),
    hend.parse.trans (hparse.trans hstart.parse)⟩

/-! ## All rounds -/

/-- The value is a text in which these dialect imports are found. -/
def Shows (found : List String) (v : Value) : Prop := ∃ s, v = .str s ∧ importsIn s = found

/-- The source transformer leaves these dialect imports as they are, whatever else it does. -/
def LeavesImports (found : List String) (d : Dialect) : Prop :=
  ∀ f, d.source = .transform f → ∀ v r, Shows found v → f v = .ok r →
    r = .notImplemented ∨ Shows found r

theorem leavesImports_stepExpansion (found : List String) : LeavesImports found stepExpansion := by
  intro f hf
  cases hf

/-- All dialects in sight leave these imports as they are. -/
def Progress.Leaves (found : List String) (p : Progress) : Prop :=
  p.world.OffersOnly (LeavesImports found)

section

variable {found : List String}

theorem ensures_liftOf {α : Type} {act : Expansion α} {Q : α → Prop}
    (h : Ensures (World.OffersOnly (LeavesImports found)) act Q) :
    Ensures (Progress.Leaves found) (lift act) Q := by
  intro p a q hp hrun
  obtain ⟨w, hact, rfl⟩ := lift_eq_ok hrun
  exact h p.world a w hp hact

theorem ensures_tell (message : Progress → String) :
    Ensures (Progress.Leaves found) (tell message) fun _ => True := by
  intro p _ q hp hrun
  obtain ⟨p', _, hget, hrun⟩ := bind_eq_ok.mp hrun
  cases hget
  split at hrun
  · cases hrun
    exact ⟨⟨hp.modules, hp.loaded⟩, trivial⟩
  · cases hrun
    exact ⟨hp, trivial⟩

theorem ensures_applyMethod {d : Dialect} (hd : LeavesImports found d) (fullName : String)
    (hv : Shows found v) :
    Ensures (Progress.Leaves found) (applyMethod .source d fullName v) fun r =>
      ∀ u, r = some u → Shows found u := by
  unfold applyMethod
  split
  · exact ensures_pure (by simp)
  · exact ensures_throw _
  · exact Ensures.update (fun _ hp => ⟨hp.modules, hp.loaded⟩)
      ((ensures_tell _).bind fun _ _ => ensures_pure (by simpa using hv))
  next f hf =>
    have hnote (entry : LogEntry) : Ensures (World.OffersOnly (LeavesImports found))
        (note entry) fun _ => True := by
      intro w _ t hw hrun
      cases hrun
      exact ⟨⟨hw.modules, hw.loaded⟩, trivial⟩
    refine (ensures_liftOf (hnote _)).bind fun _ _ => ?_
    split
    · exact ensures_pure (by simp)
    next r hne hr =>
      rcases hd f hf v r hv hr with rfl | hr
      · exact absurd rfl hne
      · exact ensures_pure (by simpa using hr)
    · exact ensures_throw _

theorem ensures_applyDialect {b : Binding} (hb : b.OffersOnly (LeavesImports found))
    (module name : String) (hv : Shows found v) :
    Ensures (Progress.Leaves found) (applyDialect .source module v name b) (Shows found) := by
  cases b with
  | dialect d =>
    simp only [applyDialect]
    split
    · exact ensures_throw _
    · refine (ensures_applyMethod (hb d rfl) _ hv).bind fun r hr => ?_
      cases r with
      | none => exact ensures_pure hv
      | some u =>
        have hstep : Ensures (Progress.Leaves found)
            (modify fun p => { p with steps := p.steps + 1 } : M Unit) fun _ => True := by
          intro p _ q hp hrun
          cases hrun
          exact ⟨hp, trivial⟩
        refine Ensures.ite ((ensures_throw (Q := fun _ => True) _).bind fun _ _ => ?_) ?_
        all_goals
          exact hstep.bind fun _ _ => (ensures_tell _).bind fun _ _ => ensures_pure (hr u rfl)
  | _ => exact ensures_bind_throw

theorem ensures_takeUp (hv : Shows found v) (statement : String) :
    Ensures (Progress.Leaves found) (takeUp v statement) (Shows found) := by
  intro p r q hp hrun
  obtain ⟨_, p₁, hseen, hrun⟩ := bind_eq_ok.mp hrun
  cases hseen
  obtain ⟨module, p₂, hparse, hrun⟩ := bind_eq_ok.mp hrun
  obtain ⟨body, -, hrun⟩ := Act.lift_bind_eq_ok.mp hrun
  obtain ⟨statement', -, hrun⟩ := Act.lift_bind_eq_ok.mp hrun
  obtain ⟨_, _, hget, hrun⟩ := bind_eq_ok.mp hrun
  cases hget
  obtain ⟨⟨name, bound⟩, p₃, hbindings, hrun⟩ := bind_eq_ok.mp hrun
  have hp₂ : p₂.Leaves found := by
    obtain ⟨w, hw, rfl⟩ := lift_eq_ok hparse
    cases htree : p.world.parse statement with
    | some tree =>
      rw [parse_of_some htree] at hw
      cases hw
      exact hp
    | none =>
      rw [parse_of_none htree] at hw
      cases hw
  obtain ⟨hp₃, -, hbound⟩ := ensures_liftOf
    (Import.ensures_bindingsOf (leavesImports_stepExpansion found) statement' _ false)
    p₂ _ p₃ hp₂ hbindings
  exact Ensures.foldlM (fun u hu e he => ensures_applyDialect (hbound e he) name e.1 hu) hv
    p₃ r q hp₃ hrun

end

theorem length_eraseDups_le (found : List String) : found.eraseDups.length ≤ found.length := by
  induction hlength : found.length using Nat.strongRecOn generalizing found with
  | ind n ih =>
    cases found with
    | nil => simp
    | cons s found =>
      have hfilter := List.length_filter_le (fun b => !b == s) found
      rw [List.length_cons] at hlength
      have hrest := ih _ (by omega) (found.filter fun b => !b == s) rfl
      rw [List.eraseDups_cons, List.length_cons]
      omega

theorem find?_notMem_of_eraseDups (h : found.eraseDups = done ++ todo) :
    found.find? (fun s => !done.contains s) = todo.head? := by
  induction done generalizing found with
  | nil =>
    cases found with
    | nil => simp_all
    | cons s found =>
      rw [List.eraseDups_cons, List.nil_append] at h
      simp [← h]
  | cons d done ih =>
    cases found with
    | nil => simp at h
    | cons s found =>
      rw [List.eraseDups_cons, List.cons_append] at h
      obtain ⟨rfl, hrest⟩ := List.cons.inj h
      rw [← ih hrest, List.find?_cons, List.find?_filter]
      simp

/-- The loop takes up the distinct imports of the text in the order in which they are found. -/
theorem loop_eq_foldlM {p : Progress} (hp : p.Leaves found) (hv : Shows found v)
    (hseen : p.seen = done) (hsplit : found.eraseDups = done ++ todo) (hfuel : todo.length < fuel) :
    loop .source fuel v p = todo.foldlM takeUp v p := by
  induction todo generalizing fuel done v p with
  | nil =>
    obtain ⟨fuel, rfl⟩ : ∃ n, fuel = n + 1 := ⟨fuel - 1, by simp at hfuel; omega⟩
    obtain ⟨s, rfl, hs⟩ := hv
    have hfind := find?_notMem_of_eraseDups hsplit
    rw [← hs, ← hseen] at hfind
    rw [loop_done hfind]
    rfl
  | cons statement todo ih =>
    obtain ⟨fuel, rfl⟩ : ∃ n, fuel = n + 1 := ⟨fuel - 1, by simp at hfuel; omega⟩
    have hv' := hv
    obtain ⟨s, rfl, hs⟩ := hv'
    have hfind := find?_notMem_of_eraseDups hsplit
    rw [← hs, ← hseen] at hfind
    rw [loop_takeUp hfind, List.foldlM_cons]
    refine Act.bind_congr_run rfl fun r q hrun => ?_
    obtain ⟨hq, hr⟩ := ensures_takeUp hv statement p r q hp hrun
    have hround := (undisturbed_takeUp (.str s) statement p).seen
    rw [hrun] at hround
    refine ih hq hr hround ?_ (by simp at hfuel; omega)
    rw [hsplit, hseen, List.append_assoc]
    rfl

theorem transform_source_eq {p : Progress} (hp : p.Leaves (importsIn text)) (hseen : p.seen = []) :
    transform .source (.str text) p =
      announced .source (.str text)
        ((importsIn text).eraseDups.foldlM takeUp (.str text)) p := by
  refine Act.bind_congr_run rfl fun _ q hq => Act.bind_congr_run ?_ fun _ _ _ => rfl
  have hleaves := (ensures_tell _ p _ q hp hq).1
  have hstart := ((keeps_tell _).of_run hq).seen
  have hlength := length_eraseDups_le (importsIn text)
  refine loop_eq_foldlM hleaves ⟨text, rfl, rfl⟩ (hstart.trans hseen) (List.nil_append _).symm ?_
  simp only [room, limit]
  omega

theorem seen_foldlM_takeUp {p q : Progress} {r : Except Error Value}
    (h : todo.foldlM takeUp v p = (r, q)) :
    ∃ done, done <+: todo ∧ q.seen = p.seen ++ done ∧ (r.isOk → done = todo) := by
  induction todo generalizing v p with
  | nil =>
    cases h
    exact ⟨[], List.nil_prefix, (List.append_nil _).symm, fun _ => rfl⟩
  | cons statement todo ih =>
    have hround := (undisturbed_takeUp v statement p).seen
    rw [List.foldlM_cons] at h
    match hrun : takeUp v statement p with
    | (.ok u, p') =>
      rw [bind_ok hrun] at h
      rw [hrun] at hround
      obtain ⟨done, hdone, hseen, hok⟩ := ih h
      refine ⟨statement :: done, (List.prefix_cons_inj statement).mpr hdone, ?_, fun hr => ?_⟩
      · rw [hseen, hround, List.append_assoc]
        rfl
      · rw [hok hr]
    | (.error e, p') =>
      rw [Act.bind_error hrun] at h
      rw [hrun] at hround
      cases h
      exact ⟨[statement], by simp, hround, fun hr => by cases hr⟩

theorem tell_run (message : Progress → String) (p : Progress) :
    ∃ q, tell message p = (.ok (), q) ∧ q.seen = p.seen := by
  rw [tell, bind_ok (get_run p)]
  split
  · exact ⟨_, rfl, rfl⟩
  · exact ⟨p, rfl, rfl⟩

theorem run_between_tells (before after : Progress → String) (act : M Value) (p : Progress) :
    ∃ p', p'.seen = p.seen ∧
      ((do tell before; let v ← act; tell after; return v : M Value) p).1 = (act p').1 ∧
      ((do tell before; let v ← act; tell after; return v : M Value) p).2.seen =
        (act p').2.seen := by
  obtain ⟨p', hbefore, hseen⟩ := tell_run before p
  refine ⟨p', hseen, ?_⟩
  rw [bind_ok hbefore]
  match hact : act p' with
  | (.error e, q) =>
    rw [Act.bind_error hact]
    exact ⟨rfl, rfl⟩
  | (.ok v, q) =>
    obtain ⟨q', hafter, hq⟩ := tell_run after q
    rw [bind_ok hact, bind_ok hafter]
    exact ⟨rfl, hq⟩

theorem announced_run (phase : Phase) (v : Value) (act : M Value) (p : Progress) :
    ∃ p', p'.seen = p.seen ∧ (announced phase v act p).1 = (act p').1 ∧
      (announced phase v act p).2.seen = (act p').2.seen :=
  run_between_tells _ _ act p

/-! ## From the source phase to the tree phase -/

def parsed (bytes : List UInt8) : M Value := do
  let text ← Text.decodeSource bytes
  let _ ← transform .source (.str text)
  match ← attempt (lift (Expansion.parse text)) with
  | .error e => throw (.report (.unparsableResult (← get).filename) (some e))
  | .ok tree => return tree

theorem expand_eq_parsed (bytes : List UInt8) : expand bytes = parsed bytes >>= transform .tree := by
  simp only [expand, parsed, bind_assoc]
  congr 1
  funext text
  congr 1
  funext _
  congr 1
  funext r
  cases r with
  | ok tree => simp only [pure_bind]
  | error e => rfl

/-- The outcome is that of parsing a text: its tree, or a failure if it has none. -/
def IsParse (p : Progress) (s : String) (r : Except Error Value) : Prop :=
  (∀ tree, r = .ok tree ↔ p.world.parse s = some tree) ∧
    ((∃ e, r = .error (.report (.unparsableResult p.filename) (some e))) ↔ p.world.parse s = none)

theorem isParse_congr {p : Progress} {s s' : String} {r : Except Error Value} (h : IsParse p s r) :
    IsParse p s' r ↔ p.world.parse s' = p.world.parse s := by
  constructor
  · intro h'
    apply Option.ext
    intro tree
    rw [← h.1 tree, ← h'.1 tree]
  · intro hs
    rw [IsParse, hs]
    exact h

theorem parsed_run {bytes : List UInt8} {p q : Progress} (hd : Text.decodeSource bytes = .ok text)
    (h : transform .source (.str text) p = (.ok v, q)) :
    IsParse p text (parsed bytes p).1 ∧ (parsed bytes p).2 = q := by
  obtain ⟨hfilename, hparse⟩ := (transform_source_ok h).2
  rw [parsed, Act.lift_bind_ok hd, bind_ok h, IsParse, ← hparse, ← hfilename]
  cases htree : q.world.parse text with
  | some tree =>
    have hlift : attempt (lift (parse text)) q = (.ok (.ok tree), q) := by
      simp only [attempt, lift, parse_of_some htree]
    rw [bind_ok hlift]
    simp
  | none =>
    have hlift : attempt (lift (parse text)) q =
        (.ok (.error (.fault (.badSource (Text.Layout.failure text)))), q) := by
      simp only [attempt, lift, parse_of_none htree]
    rw [bind_ok hlift]
    refine ⟨⟨fun tree => ?_, ?_⟩, rfl⟩
    · constructor <;> intro hok <;> cases hok
    · exact iff_of_true ⟨_, rfl⟩ rfl

/-- The tree phase starts from the tree of the file as it was. So the source phase, which ends with
another text, is heeded only if that text has the same tree. -/
theorem expand_ignores_source {bytes : List UInt8} {text : String} {p q : Progress} {v : Value}
    (hd : Text.decodeSource bytes = .ok text) (h : transform .source (.str text) p = (.ok v, q)) :
    ∃ s, v = .str s ∧ expand bytes p = (parsed bytes >>= transform .tree) p ∧
      (parsed bytes p).2 = q ∧ IsParse p text (parsed bytes p).1 ∧
      (IsParse p s (parsed bytes p).1 ↔ p.world.parse s = p.world.parse text) := by
  obtain ⟨⟨s, rfl⟩, -⟩ := transform_source_ok h
  obtain ⟨htext, hq⟩ := parsed_run hd h
  exact ⟨s, rfl, by rw [expand_eq_parsed], hq, htext, isParse_congr htext⟩

/-- The tree of a dialect import, followed by a name. -/
def importing (names : List String) : Value :=
  .node .module
    [("body", .list (.node .importFrom
        [("module", .str "d"),
         ("names", .list [.node .importAlias [("name", .str "dialects"), ("asname", .none)],
           .node .importAlias [("name", .str "D"), ("asname", .none)]]),
         ("level", .int 0)] ::
      names.map fun n => .node .exprStmt [("value", .node .name [("id", .str n),
        ("ctx", .node .load [])])]))]

def rewriting (text : String) : Dialect where
  name := "D"
  home := "d"
  failure := none
  source := .transform fun _ => .ok (.str text)
  tree := .inherited

/-- A state in which that dialect can be imported, and a few texts can be parsed. -/
def withRewriting (text : String) : Progress :=
  start { World.start (.ofQueue []) with
    modules := [("d", ⟨[("D", .dialect (rewriting text))], none, false, none⟩)]
    parse := fun s => [("from d import dialects, D", importing []),
      ("from d import dialects, D\n(x)\n", importing ["x"]),
      ("from d import dialects, D\n(y)\n", importing ["y"])].lookup s } "example.py" false

/-- A state in which the dialect puts `y` for `x`. -/
def toY : Progress := withRewriting "from d import dialects, D\n(y)\n"

private theorem transform_toY :
    ∃ q, transform .source (.str "from d import dialects, D\n(x)\n") toY =
      (.ok (.str "from d import dialects, D\n(y)\n"), q) := by
  have hrun : (transform .source (.str "from d import dialects, D\n(x)\n") toY).1.toOption.map
      Value.display = some "from d import dialects, D\n(y)\n" := by
    decide +kernel
  cases h : transform .source (.str "from d import dialects, D\n(x)\n") toY with
  | mk r q =>
    rw [h] at hrun
    cases r with
    | error e => cases hrun
    | ok v =>
      obtain ⟨⟨s, rfl⟩, -⟩ := transform_source_ok h
      obtain rfl : s = "from d import dialects, D\n(y)\n" := Option.some.inj hrun
      exact ⟨q, rfl⟩

def rewritten : List UInt8 := "from d import dialects, D\n(x)\n".toUTF8.toList

private theorem decodeSource_rewritten :
    Text.decodeSource rewritten = .ok "from d import dialects, D\n(x)\n" := by
  have hdecode : (Text.decodeSource rewritten).toOption =
      some "from d import dialects, D\n(x)\n" := by
    decide +kernel
  cases h : Text.decodeSource rewritten with
  | ok text =>
    rw [h] at hdecode
    cases hdecode
    rfl
  | error e =>
    rw [h] at hdecode
    cases hdecode

theorem expand_ignores_source_rewritten :
    ∃ q, Text.decodeSource rewritten = .ok "from d import dialects, D\n(x)\n" ∧
      transform .source (.str "from d import dialects, D\n(x)\n") toY =
        (.ok (.str "from d import dialects, D\n(y)\n"), q) ∧
      expand rewritten toY =
        (parsed rewritten >>= transform .tree) toY ∧
      IsParse toY "from d import dialects, D\n(x)\n"
        (parsed rewritten toY).1 := by
  obtain ⟨q, hq⟩ := transform_toY
  obtain ⟨s, -, hexpand, -, hparse, -⟩ := expand_ignores_source decodeSource_rewritten hq
  exact ⟨q, decodeSource_rewritten, hq, hexpand, hparse⟩

/-- The dialect has put `y` for `x`, but it is the tree with `x` that goes on. -/
theorem parsed_rewritten :
    (∃ q, transform .source (.str "from d import dialects, D\n(x)\n") toY =
      (.ok (.str "from d import dialects, D\n(y)\n"), q)) ∧
    toY.world.parse "from d import dialects, D\n(y)\n" = some (importing ["y"]) ∧
    (parsed rewritten toY).1 = .ok (importing ["x"]) ∧
    importing ["x"] ≠ importing ["y"] := by
  obtain ⟨q, hq⟩ := transform_toY
  obtain ⟨hparse, -⟩ := parsed_run decodeSource_rewritten hq
  refine ⟨⟨q, hq⟩, rfl, (hparse.1 (importing ["x"])).mpr rfl, ?_⟩
  simp [importing]

end Dialect

end TreeMacros
