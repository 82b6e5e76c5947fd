import TreeMacros.Proofs.LocatedOutput
import TreeMacros.Proofs.SourcePhase

/-!
# Transforming the tree of a module

In the tree phase the first dialect import of a module is made a plain one, its dialects are called
one after the other, and the search starts again in what they made of the module. The run is told as
a list of rounds, each with the calls that were made in it. The main statement says how the tree at
the end comes from the one at the start, and that the rounds come to an end unless transformers
bring in further imports.
-/

namespace TreeMacros

open Act (bind_eq_ok bind_ok)

variable {w t : World} {v r : Value} {ss : List Value} {module name : String}

namespace World

/-- The second state is the first, but for what has been noted down and shown. -/
def TellsOnly (w t : World) : Prop := ∃ log printed, t = { w with log, printed }

/-- The second state is the first, but for what is loaded, noted down and shown. -/
def Continues (w t : World) : Prop :=
  ∃ made loaded executed log printed, t = { w with made, loaded, executed, log, printed }

instance : IsPreorder World TellsOnly where
  refl w := ⟨w.log, w.printed, rfl⟩
  trans := by
    rintro w _ _ ⟨_, _, rfl⟩ ⟨log, printed, rfl⟩
    exact ⟨log, printed, rfl⟩

theorem TellsOnly.offersOnly {D : Dialect → Prop} (h : w.TellsOnly t) (hw : w.OffersOnly D) :
    t.OffersOnly D := by
  obtain ⟨_, _, rfl⟩ := h
  exact ⟨hw.modules, hw.loaded⟩

theorem Continues.refl (w : World) : w.Continues w :=
  ⟨w.made, w.loaded, w.executed, w.log, w.printed, rfl⟩

theorem Continues.tells {u : World} (h : w.Continues t) (ht : t.TellsOnly u) : w.Continues u := by
  obtain ⟨made, loaded, executed, _, _, rfl⟩ := h
  obtain ⟨log, printed, rfl⟩ := ht
  exact ⟨made, loaded, executed, log, printed, rfl⟩

theorem Continues.loads {u : World} (h : w.Continues t) (ht : t.LoadsOnly u) : w.Continues u := by
  obtain ⟨_, _, _, log, printed, rfl⟩ := h
  obtain ⟨made, loaded, executed, rfl⟩ := ht
  exact ⟨made, loaded, executed, log, printed, rfl⟩

end World

/-- What a transformer gives for the content it is called on. -/
inductive DialectMethod.Gives : DialectMethod → Value → Value → Prop
  | inherited (v : Value) : Gives .inherited v .notImplemented
  | watch (v : Value) : Gives .watch v v
  | transform {f : Value → Except Error Value} {v r : Value} (h : f v = .ok r) :
    Gives (.transform f) v r

namespace Dialect

/-- One call of a tree transformer. -/
structure Turn where
  dialect : Dialect
  /-- What the transformer is called on. -/
  content : Value
  answer : Value
  ready : dialect.failure = none
  gives : dialect.tree.Gives content answer
  isTruthy : answer.isTruthy = true

namespace Turn

/-- Whether the transformer has given a result. -/
def isStep (c : Turn) : Bool :=
  match c.answer with
  | .notImplemented => false
  | _ => true

def outcome (c : Turn) : Value := if c.isStep then c.answer else c.content

def entries (c : Turn) : List LogEntry :=
  match c.dialect.tree with
  | .transform _ => [.transformed c.dialect.name Phase.tree.logged]
  | _ => []

end Turn

/-- Each of these calls is on what the one before has left. -/
def Chain : Value → List Turn → Value → Prop
  | v, [], r => r = v
  | v, c :: calls, r => c.content = v ∧ Chain c.outcome calls r

/-! ## The imports of a tree -/

def statements (v : Value) : Except Error (List Value) := do (← v.attr "body").elements

def isImport (s : Value) : Bool :=
  match s.isMarkedImport dialectsMark with
  | .ok b => b
  | .error _ => false

/-- How many dialect imports there are at the top level of a tree. -/
def importCount (v : Value) : Nat :=
  match statements v with
  | .ok ss => ss.countP isImport
  | .error _ => 0

/-- No statement at the top level of the tree is a dialect import. -/
def HasNoImports (v : Value) : Prop :=
  ∃ ss, statements v = .ok ss ∧ ∀ s ∈ ss, s.isMarkedImport dialectsMark = .ok false

/-- One round: the first dialect import of a tree, and the calls of its dialects. -/
structure Round where
  /-- The tree in which the import has been found. -/
  content : Value
  before : List Value
  statement : Value
  rest : List Value
  /-- The module that the dialects are from, by its full name. -/
  module : String
  bound : Bindings
  calls : List Turn
  body : content.attr "body" = .ok (.list (before ++ statement :: rest))
  isFirst : ∀ s ∈ before, s.isMarkedImport dialectsMark = .ok false
  isMarked : statement.isMarkedImport dialectsMark = .ok true
  areBound : bound.map (·.2) = calls.map fun c => .dialect c.dialect

namespace Round

/-- The tree with a plain import of the module in the place of the dialect import. -/
def replaced (t : Round) : Value :=
  t.content.setAttr "body" (.list (t.before ++ Import.plainImport t.module t.statement :: t.rest))

/-- The statement binds these dialects in a run that began in state `p`. -/
def ImportsIn (t : Round) (p : Progress) : Prop :=
  ∃ w u, p.world.Continues w ∧
    Import.bindingsOf t.statement p.filename false false w = (.ok (t.module, t.bound), u)

end Round

/-- The rounds by which one tree becomes another in a run that began in state `p`. -/
inductive Rounds (p : Progress) : Value → List Round → Value → Prop
  | done {v : Value} (h : HasNoImports v) : Rounds p v [] v
  | round {u r : Value} {ts : List Round} (t : Round) (himports : t.ImportsIn p)
    (hcalls : Chain t.replaced t.calls u) (h : Rounds p u ts r) : Rounds p t.content (t :: ts) r

/-- A plain import is not marked: copying the location of another statement leaves its kind as it
is. -/
theorem isMarkedImport_plainImport (module : String) (statement : Value) (mark : String) :
    (Import.plainImport module statement).isMarkedImport mark = .ok false := by
  obtain ⟨bs, hbs, -⟩ := Value.exists_copyLocation .importStmt _ statement
  rw [Import.plainImport, hbs]
  rfl

theorem statements_of_attr (h : v.attr "body" = .ok (.list ss)) : statements v = .ok ss := by
  rw [statements, h]
  rfl

theorem statements_setAttr {w : Value} (h : v.attr "body" = .ok w) (ss : List Value) :
    statements (v.setAttr "body" (.list ss)) = .ok ss := by
  cases v with
  | node k as =>
    refine statements_of_attr ?_
    simp only [Value.setAttr, Value.attr, Value.attr?, Attrs.get?_set, if_true]
  | _ => cases h

theorem Round.importCount_replaced (t : Round) :
    importCount t.content = importCount t.replaced + 1 := by
  have hplain : isImport (Import.plainImport t.module t.statement) = false := by
    rw [isImport, isMarkedImport_plainImport]
  have hmarked : isImport t.statement := by rw [isImport, t.isMarked]
  rw [importCount, statements_of_attr t.body, importCount, replaced, statements_setAttr t.body]
  simp only [List.countP_append, List.countP_cons, hplain, hmarked]
  simp [Nat.add_assoc]

theorem splitAtImport_eq_ok {before rest : List Value} (h : splitAtImport ss = .ok (before, rest)) :
    ss = before ++ rest ∧ (∀ s ∈ before, s.isMarkedImport dialectsMark = .ok false) ∧
      ∀ s ∈ rest.head?, s.isMarkedImport dialectsMark = .ok true := by
  induction ss generalizing before with
  | nil =>
    cases h
    simp
  | cons s ss ih =>
    obtain ⟨b, hb, h⟩ := except_bind_eq_ok.mp h
    cases b with
    | true =>
      cases h
      simpa using hb
    | false =>
      obtain ⟨⟨before', rest'⟩, hsplit, h⟩ := except_bind_eq_ok.mp h
      cases h
      obtain ⟨rfl, hbefore, hrest⟩ := ih hsplit
      exact ⟨rfl, by simpa using ⟨hb, hbefore⟩, hrest⟩

/-! ## What a run notes down -/

/-- The second state is later than the first by these calls. -/
structure Advances (p : Progress) (calls : List Turn) (q : Progress) : Prop where
  filename : q.filename = p.filename
  steps : q.steps = p.steps + (calls.filter Turn.isStep).length
  log : q.world.log = p.world.log ++ calls.flatMap Turn.entries

theorem Advances.refl (p : Progress) : Advances p [] p := ⟨rfl, rfl, (List.append_nil _).symm⟩

theorem Advances.append {p q r : Progress} {calls more : List Turn} (h : Advances p calls q)
    (h' : Advances q more r) : Advances p (calls ++ more) r where
  filename := h'.filename.trans h.filename
  steps := by
    rw [h'.steps, h.steps, List.filter_append, List.length_append, Nat.add_assoc]
  log := by rw [h'.log, h.log, List.flatMap_append, List.append_assoc]

theorem tell_ok {message : Progress → String} {p q : Progress}
    (h : tell message p = (.ok (), q)) : Advances p [] q ∧ p.world.TellsOnly q.world := by
  rw [tell, bind_ok (Act.get_run p)] at h
  split at h
  · cases h
    exact ⟨⟨rfl, rfl, (List.append_nil _).symm⟩, p.world.log, _, rfl⟩
  · cases h
    exact ⟨.refl p, refl _⟩

/-! ## One call -/

theorem applyMethod_eq_ok {d : Dialect} {fullName : String} {o : Option Value} {p q : Progress}
    (h : applyMethod .tree d fullName v p = (.ok o, q)) (hv : v ≠ .notImplemented)
    (hready : d.failure = none) (hempty : ∀ r, o = some r → r.isTruthy) :
    ∃ c : Turn, c.dialect = d ∧ c.content = v ∧ o = (if c.isStep then some c.answer else none) ∧
      q.filename = p.filename ∧ q.steps = p.steps ∧ q.world.log = p.world.log ++ c.entries ∧
      p.world.TellsOnly q.world := by
  rw [applyMethod, method] at h
  cases hd : d.tree with
  | inherited =>
    simp only [hd] at h
    cases h
    refine ⟨⟨d, v, .notImplemented, hready, hd ▸ .inherited v, rfl⟩, rfl, rfl, rfl, rfl, rfl, ?_,
      refl _⟩
    simp [Turn.entries, hd]
  | missing =>
    simp only [hd] at h
    cases h
  | watch =>
    simp only [hd] at h
    obtain ⟨_, _, hget, h⟩ := bind_eq_ok.mp h
    cases hget
    obtain ⟨_, p₁, hset, h⟩ := bind_eq_ok.mp h
    cases hset
    obtain ⟨_, p₂, htell, h⟩ := bind_eq_ok.mp h
    cases h
    obtain ⟨hadv, htells⟩ := tell_ok htell
    refine ⟨⟨d, v, v, hready, hd ▸ .watch v, hempty v rfl⟩, rfl, rfl, ?_, hadv.filename, hadv.steps,
      ?_, htells⟩
    · cases v with
      | notImplemented => exact absurd rfl hv
      | _ => rfl
    · rw [hadv.log]
      simp [Turn.entries, hd]
  | transform f =>
    simp only [hd] at h
    obtain ⟨_, p₁, hnote, h⟩ := bind_eq_ok.mp h
    cases hnote
    have htells (entry : LogEntry) :
        p.world.TellsOnly { p.world with log := p.world.log ++ [entry] } := ⟨_, p.world.printed, rfl⟩
    cases hf : f v with
    | error e =>
      simp only [hf] at h
      cases h
    | ok r =>
      simp only [hf] at h
      have hgives : d.tree.Gives v r := hd ▸ .transform hf
      cases r with
      | notImplemented =>
        cases h
        refine ⟨⟨d, v, .notImplemented, hready, hgives, rfl⟩, rfl, rfl, rfl, rfl, rfl, ?_, htells _⟩
        simp only [Turn.entries, hd]
      | _ =>
        cases h
        refine ⟨⟨d, v, _, hready, hgives, hempty _ rfl⟩, rfl, rfl, rfl, rfl, rfl, ?_, htells _⟩
        simp only [Turn.entries, hd]

theorem applyDialect_eq_ok {b : Binding} {p q : Progress}
    (h : applyDialect .tree module v name b p = (.ok r, q)) (hv : v ≠ .notImplemented) :
    ∃ c : Turn, b = .dialect c.dialect ∧ c.content = v ∧ c.outcome = r ∧ Advances p [c] q ∧
      p.world.TellsOnly q.world := by
  cases b with
  | dialect d =>
    rw [applyDialect] at h
    cases hready : d.failure with
    | some e =>
      simp only [hready] at h
      cases h
    | none =>
      simp only [hready] at h
      obtain ⟨o, p₁, hmethod, h⟩ := bind_eq_ok.mp h
      have hempty : ∀ u, o = some u → u.isTruthy := by
        rintro u rfl
        cases hu : u.isTruthy with
        | true => rfl
        | false =>
          simp only [hu] at h
          cases h
      obtain ⟨c, rfl, rfl, rfl, hfile, hsteps, hlog, htells⟩ :=
        applyMethod_eq_ok hmethod hv hready hempty
      refine ⟨c, rfl, rfl, ?_⟩
      cases hstep : c.isStep with
      | false =>
        simp only [hstep] at h
        cases h
        refine ⟨by rw [Turn.outcome, hstep]; rfl, ⟨hfile, ?_, ?_⟩, htells⟩
        · simpa [hstep] using hsteps
        · simpa using hlog
      | true =>
        simp only [hstep, if_true] at h
        rw [c.isTruthy] at h
        obtain ⟨_, p₂, hmodify, h⟩ := bind_eq_ok.mp h
        cases hmodify
        obtain ⟨_, p₃, htell, h⟩ := bind_eq_ok.mp h
        cases h
        obtain ⟨hadv, htells'⟩ := tell_ok htell
        refine ⟨by rw [Turn.outcome, hstep]; rfl, ⟨?_, ?_, ?_⟩, IsTrans.trans _ _ _ htells htells'⟩
        · exact hadv.filename.trans hfile
        · simpa [hstep, hsteps] using hadv.steps
        · simpa [hlog] using hadv.log
  | _ => cases h

theorem Turn.outcome_ne {c : Turn} (h : c.content ≠ .notImplemented) :
    c.outcome ≠ .notImplemented := by
  rw [outcome]
  split
  next hstep =>
    intro hanswer
    rw [isStep, hanswer] at hstep
    cases hstep
  next => exact h

theorem foldlM_applyDialect_eq_ok {bound : Bindings} {p q : Progress} (hv : v ≠ .notImplemented)
    (h : (bound.foldlM (fun v e => applyDialect .tree module v e.1 e.2) v : M Value) p = (.ok r, q))
    :
    ∃ calls : List Turn, (bound.map (·.2) = calls.map fun c => .dialect c.dialect) ∧
      Chain v calls r ∧ Advances p calls q ∧ p.world.TellsOnly q.world := by
  induction bound generalizing v p with
  | nil =>
    cases h
    exact ⟨[], rfl, rfl, .refl _, refl _⟩
  | cons e bound ih =>
    rw [List.foldlM_cons] at h
    obtain ⟨u, p₁, hcall, h⟩ := bind_eq_ok.mp h
    obtain ⟨c, hbound, rfl, rfl, hadv, htells⟩ := applyDialect_eq_ok hcall hv
    obtain ⟨calls, hcalls, hchain, hadv', htells'⟩ := ih (Turn.outcome_ne hv) h
    refine ⟨c :: calls, ?_, ⟨rfl, hchain⟩, hadv.append hadv', IsTrans.trans _ _ _ htells htells'⟩
    rw [List.map_cons, List.map_cons, hbound, hcalls]

/-! ## One round -/

/-- Takes up the first dialect import of a tree, if there is one. -/
def round (v : Value) : M (Option Value) := do
  match ← next .tree v with
  | none => return none
  | some (u, module, bound) =>
    return some (← bound.foldlM (fun v (name, b) => applyDialect .tree module v name b) u)

/-- What a search in a tree ends with: it has no dialect imports, or the first one is made plain. -/
theorem next_tree_eq_ok {o : Option (Value × String × Bindings)} {p q : Progress}
    (h : next .tree v p = (.ok o, q)) :
    (o = none ∧ q = p ∧ HasNoImports v) ∨
    ∃ before statement rest module bound w,
      v.attr "body" = .ok (.list (before ++ statement :: rest)) ∧
      (∀ s ∈ before, s.isMarkedImport dialectsMark = .ok false) ∧
      statement.isMarkedImport dialectsMark = .ok true ∧
      o = some (v.setAttr "body" (.list (before ++ Import.plainImport module statement :: rest)),
        module, bound) ∧
      Import.bindingsOf statement p.filename false false p.world = (.ok (module, bound), w) ∧
      q = { p with world := w } := by
  obtain ⟨body, hbody, hrest⟩ := Act.lift_bind_eq_ok.mp h
  obtain ⟨ss, hss, hrest⟩ := Act.lift_bind_eq_ok.mp hrest
  obtain ⟨⟨before, found⟩, hsplit, hdone⟩ := Act.lift_bind_eq_ok.mp hrest
  obtain ⟨hfield, hbefore, hfound⟩ := splitAtImport_eq_ok hsplit
  rw [hfield] at hss
  cases found with
  | nil =>
    cases hdone
    refine .inl ⟨rfl, rfl, before, ?_, hbefore⟩
    rw [List.append_nil] at hss
    rw [statements, hbody]
    exact hss
  | cons statement rest =>
    obtain ⟨_, _, hget, hdone⟩ := bind_eq_ok.mp hdone
    cases hget
    obtain ⟨⟨module, bound⟩, p₁, hlift, hdone⟩ := bind_eq_ok.mp hdone
    obtain ⟨w, hbindings, rfl⟩ := lift_eq_ok hlift
    obtain ⟨_, hlist, hdone⟩ := Act.lift_bind_eq_ok.mp hdone
    cases body with
    | list xs =>
      cases hdone
      rw [show xs = before ++ statement :: rest from Except.ok.inj hss] at hbody
      exact .inr ⟨before, statement, rest, module, bound, w, hbody, hbefore,
        hfound statement rfl, rfl, hbindings, rfl⟩
    | _ => cases hlist

theorem ne_of_attr {w : Value} (h : v.attr name = .ok w) : v ≠ .notImplemented := by
  rintro rfl
  cases h

theorem setAttr_ne (h : v ≠ .notImplemented) (name : String) (w : Value) :
    v.setAttr name w ≠ .notImplemented := by
  cases v with
  | notImplemented => exact absurd rfl h
  | _ => simp [Value.setAttr]

theorem round_eq_ok {o : Option Value} {p q : Progress} (h : round v p = (.ok o, q)) :
    (o = none ∧ q = p ∧ HasNoImports v) ∨
    ∃ (t : Round) (u : Value) (w : World), t.content = v ∧ o = some u ∧
      Import.bindingsOf t.statement p.filename false false p.world =
        (.ok (t.module, t.bound), w) ∧
      Chain t.replaced t.calls u ∧ Advances p t.calls q ∧ w.TellsOnly q.world := by
  obtain ⟨found, p₁, hnext, hrest⟩ := bind_eq_ok.mp h
  rcases next_tree_eq_ok hnext with ⟨rfl, rfl, hnone⟩ |
    ⟨before, statement, rest, module, bound, w, hbody, hbefore, hmarked, rfl, hbindings, rfl⟩
  · cases hrest
    exact .inl ⟨rfl, rfl, hnone⟩
  · obtain ⟨u, p₂, hfold, hdone⟩ := bind_eq_ok.mp hrest
    cases hdone
    have hv := setAttr_ne (ne_of_attr hbody) "body"
      (.list (before ++ Import.plainImport module statement :: rest))
    obtain ⟨calls, hcalls, hchain, hadv, htells⟩ := foldlM_applyDialect_eq_ok hv hfold
    refine .inr ⟨⟨v, before, statement, rest, module, bound, calls, hbody, hbefore, hmarked, hcalls⟩,
      u, w, rfl, rfl, hbindings, hchain, ⟨hadv.filename, hadv.steps, ?_⟩, htells⟩
    obtain ⟨made, loaded, executed, hw⟩ :=
      (Import.keeps_bindingsOf statement p.filename false false).of_run hbindings
    rw [hadv.log, hw]

theorem loop_tree_succ (fuel : Nat) (v : Value) (p : Progress) :
    loop .tree (fuel + 1) v p =
      (round v >>= fun o => match o with
        | none => pure v
        | some u => loop .tree fuel u) p := by
  rw [loop, round, bind_assoc]
  refine Act.bind_congr_run rfl fun found q hnext => ?_
  rcases next_tree_eq_ok hnext with ⟨rfl, -, -⟩ |
    ⟨before, statement, rest, module, bound, w, -, -, -, rfl, hbindings, -⟩
  · rfl
  · have hname := isEmpty_of_bindingsOf hbindings
    simp only [hname, bind_assoc, pure_bind]
    rfl

/-! ## All rounds -/

theorem Rounds.hasNoImports {p : Progress} {ts : List Round} (h : Rounds p v ts r) :
    HasNoImports r := by
  induction h with
  | done h => exact h
  | round _ _ _ _ ih => exact ih

theorem loop_tree_rounds {fuel : Nat} {p₀ p q : Progress} (hfile : p.filename = p₀.filename)
    (hworld : p₀.world.Continues p.world) (h : loop .tree fuel v p = (.ok r, q)) :
    ∃ ts, Rounds p₀ v ts r ∧ Advances p (ts.flatMap Round.calls) q := by
  induction fuel generalizing v p with
  | zero => cases h
  | succ fuel ih =>
    rw [loop_tree_succ] at h
    obtain ⟨o, p₁, hround, hrest⟩ := bind_eq_ok.mp h
    rcases round_eq_ok hround with ⟨rfl, rfl, hnone⟩ |
      ⟨t, u, w, rfl, rfl, hbindings, hchain, hadv, htells⟩
    · cases hrest
      exact ⟨[], .done hnone, .refl _⟩
    · have hloads := (Import.keeps_bindingsOf t.statement p.filename false false).of_run hbindings
      obtain ⟨ts, hrounds, hadv'⟩ :=
        ih (hadv.filename.trans hfile) ((hworld.loads hloads).tells htells) hrest
      refine ⟨t :: ts, .round t ⟨p.world, w, hworld, hfile ▸ hbindings⟩ hchain hrounds, ?_⟩
      rw [List.flatMap_cons]
      exact hadv.append hadv'

theorem importCount_chain {calls : List Turn} (h : Chain v calls r)
    (hcalls : ∀ c ∈ calls, importCount c.outcome ≤ importCount c.content) :
    importCount r ≤ importCount v := by
  induction calls generalizing v with
  | nil => exact Nat.le_of_eq (congrArg importCount h)
  | cons c calls ih =>
    obtain ⟨rfl, h⟩ := h
    exact Nat.le_trans (ih h fun d hd => hcalls d (by simp [hd])) (hcalls c (by simp))

theorem Rounds.length_le {p : Progress} {ts : List Round} (h : Rounds p v ts r)
    (hcalls : ∀ c ∈ ts.flatMap Round.calls, importCount c.outcome ≤ importCount c.content) :
    ts.length ≤ importCount v := by
  induction h with
  | done => exact Nat.zero_le _
  | @round u r ts t _ hchain _ ih =>
    simp only [List.flatMap_cons, List.mem_append] at hcalls
    have hrest := ih fun c hc => hcalls c (.inr hc)
    have hround := importCount_chain hchain fun c hc => hcalls c (.inl hc)
    rw [t.importCount_replaced, List.length_cons]
    omega

/-! ## The end of the loop -/

/-- The tree transformer adds no dialect import at the top level. -/
def AddsNoImports (d : Dialect) : Prop :=
  ∀ v r, d.tree.Gives v r → r = .notImplemented ∨ importCount r ≤ importCount v

/-- The loop ends after `n` rounds at most, with a failure or because no import is left. -/
inductive EndsWithin : Nat → Value → Progress → Prop
  | ended {n : Nat} {v : Value} {p : Progress} (h : ∀ u q, round v p ≠ (.ok (some u), q)) :
    EndsWithin n v p
  | again {n : Nat} {v u : Value} {p q : Progress} (h : round v p = (.ok (some u), q))
    (hrest : EndsWithin n u q) : EndsWithin (n + 1) v p

theorem addsNoImports_stepExpansion : AddsNoImports stepExpansion := by
  intro v r h
  cases h
  exact .inl rfl

theorem AddsNoImports.outcome {c : Turn} (h : AddsNoImports c.dialect) :
    importCount c.outcome ≤ importCount c.content := by
  rw [Turn.outcome]
  split
  next hstep =>
    rcases h _ _ c.gives with hanswer | hle
    · rw [Turn.isStep, hanswer] at hstep
      cases hstep
    · exact hle
  next => exact Nat.le_refl _

theorem endsWithin_of_importCount {n : Nat} {p : Progress} (hp : p.world.OffersOnly AddsNoImports)
    (hn : importCount v ≤ n) : EndsWithin n v p := by
  induction n generalizing v p with
  | zero =>
    refine .ended fun u q hround => ?_
    rcases round_eq_ok hround with ⟨ho, -⟩ | ⟨t, _, _, rfl, -⟩
    · cases ho
    · have := t.importCount_replaced
      omega
  | succ n ih =>
    by_cases hround : ∃ u q, round v p = (.ok (some u), q)
    · obtain ⟨u, q, hround⟩ := hround
      refine .again hround ?_
      rcases round_eq_ok hround with ⟨ho, -⟩ |
        ⟨t, _, w, rfl, ho, hbindings, hchain, -, htells⟩
      · cases ho
      · cases ho
        obtain ⟨hw, -, hoffers⟩ := Import.ensures_bindingsOf addsNoImports_stepExpansion
          t.statement p.filename false p.world _ w hp hbindings
        have hcalls : ∀ c ∈ t.calls, importCount c.outcome ≤ importCount c.content := by
          intro c hc
          have hmem : Binding.dialect c.dialect ∈ t.bound.map (·.2) := by
            rw [t.areBound]
            exact List.mem_map_of_mem hc
          obtain ⟨e, he, heq⟩ := List.mem_map.mp hmem
          exact (hoffers e he c.dialect heq).outcome
        have hle := importCount_chain hchain hcalls
        have := t.importCount_replaced
        exact ih (htells.offersOnly hw) (by omega)
    · exact .ended fun u q h => hround ⟨u, q, h⟩

theorem EndsWithin.loop_eq {n fuel : Nat} {p : Progress} (h : EndsWithin n v p) (hfuel : n < fuel) :
    loop .tree fuel v p = loop .tree (n + 1) v p := by
  obtain ⟨fuel, rfl⟩ : ∃ m, fuel = m + 1 := ⟨fuel - 1, by omega⟩
  induction h generalizing fuel with
  | ended h =>
    rw [loop_tree_succ, loop_tree_succ]
    refine Act.bind_congr_run rfl fun o q hround => ?_
    cases o with
    | none => rfl
    | some u => exact absurd hround (h u q)
  | @again n v u p q h hrest ih =>
    rw [loop_tree_succ, loop_tree_succ, bind_ok h, bind_ok h]
    obtain ⟨fuel, rfl⟩ : ∃ m, fuel = m + 1 := ⟨fuel - 1, by omega⟩
    exact ih fuel (by omega)

theorem importCount_lt_room (v : Value) : importCount v < room .tree v := by
  have hcount : importCount v ≤ ((v.attr? "body").bind Value.elements?).elim 0 List.length := by
    rw [importCount, statements, Value.attr]
    cases v.attr? "body" with
    | none => exact Nat.le_refl 0
    | some body =>
      cases hss : body.elements? with
      | none => simp [Value.elements, hss, bind, Except.bind]
      | some ss =>
        simpa [Value.elements, hss, bind, Except.bind] using List.countP_le_length
  unfold room
  split
  next h => cases h
  next =>
    split
    next ss hss =>
      rw [hss] at hcount
      simp only [Option.elim_some, limit] at hcount ⊢
      omega
    next hss =>
      rw [hss] at hcount
      simp only [Option.elim_none, limit] at hcount ⊢
      omega

/-- The tree phase, which `transform` runs with `room` for its rounds. Where it succeeds, the tree has
no dialect import left at the top level. It has gone through rounds: in each, the first of these
imports is made a plain one and its dialects are called in order, each on what the one before has
left; results are counted as steps. If no call adds a dialect import, there are no more rounds than
imports at the start, and if no dialect in sight does, the loop comes to its end within these, also
if it fails. -/
theorem transform_tree_rounds (fuel : Nat) (v : Value) (p : Progress) :
    (∀ r q, announced .tree v (loop .tree fuel v) p = (.ok r, q) →
      HasNoImports r ∧ ∃ ts : List Round, Rounds p v ts r ∧
        q.steps = p.steps + ((ts.flatMap Round.calls).filter Turn.isStep).length ∧
        q.world.log = p.world.log ++ (ts.flatMap Round.calls).flatMap Turn.entries ∧
        ((∀ c ∈ ts.flatMap Round.calls, importCount c.outcome ≤ importCount c.content) →
          ts.length ≤ importCount v)) ∧
    (p.world.OffersOnly AddsNoImports →
      EndsWithin (importCount v) v p ∧
        (importCount v < fuel →
          announced .tree v (loop .tree fuel v) p = transform .tree v p)) := by
  refine ⟨fun r q h => ?_, fun hp => ⟨endsWithin_of_importCount hp (Nat.le_refl _), fun hfuel => ?_⟩⟩
  · obtain ⟨_, p₁, hbefore, h⟩ := Act.bind_eq_ok.mp h
    obtain ⟨u, p₂, hloop, h⟩ := Act.bind_eq_ok.mp h
    obtain ⟨_, p₃, hafter, h⟩ := Act.bind_eq_ok.mp h
    cases h
    obtain ⟨hstart, htells⟩ := tell_ok hbefore
    obtain ⟨ts, hrounds, hadv⟩ := loop_tree_rounds hstart.filename
      ((World.Continues.refl p.world).tells htells) hloop
    obtain ⟨hend, -⟩ := tell_ok hafter
    have hall := (hstart.append hadv).append hend
    rw [List.nil_append, List.append_nil] at hall
    exact ⟨hrounds.hasNoImports, ts, hrounds, hall.steps, hall.log, hrounds.length_le⟩
  · refine Act.bind_congr_run rfl fun _ p₁ hbefore => Act.bind_congr_run ?_ fun _ _ _ => rfl
    have hends : EndsWithin (importCount v) v p₁ :=
      endsWithin_of_importCount ((tell_ok hbefore).2.offersOnly hp) (Nat.le_refl _)
    rw [hends.loop_eq hfuel, hends.loop_eq (importCount_lt_room v)]

def emptying : Dialect where
  name := "D"
  home := "d"
  failure := none
  source := .inherited
  tree := .transform fun _ => .ok (.node .module [("body", .list [])])

/-- A state in which that dialect can be imported. -/
def withEmptying : Progress :=
  start { World.start (.ofQueue []) with
    modules := [("d", ⟨[("D", .dialect emptying)], none, false, none⟩)] } "example.py" false

private theorem transform_emptying :
    ∃ r q, transform .tree (importing ["x"]) withEmptying = (.ok r, q) := by
  have hrun : (transform .tree (importing ["x"]) withEmptying).1.isOk := by decide +kernel
  cases h : transform .tree (importing ["x"]) withEmptying with
  | mk o q =>
    rw [h] at hrun
    cases o with
    | error e => cases hrun
    | ok r => exact ⟨r, q, rfl⟩

private theorem offersOnly_withEmptying : withEmptying.world.OffersOnly AddsNoImports := by
  refine ⟨fun m hm e he d hd => ?_, fun m hm => by cases hm⟩
  obtain rfl := List.mem_singleton.mp hm
  obtain rfl := List.mem_singleton.mp he
  cases hd
  intro v r h
  cases h with
  | transform h =>
    cases h
    exact .inr (Nat.zero_le _)

theorem transform_tree_rounds_emptying :
    withEmptying.world.OffersOnly AddsNoImports ∧
    ∃ r q, transform .tree (importing ["x"]) withEmptying = (.ok r, q) ∧ HasNoImports r ∧
      EndsWithin (importCount (importing ["x"])) (importing ["x"]) withEmptying := by
  obtain ⟨r, q, hrun⟩ := transform_emptying
  obtain ⟨hrounds, hends⟩ :=
    transform_tree_rounds (room .tree (importing ["x"])) (importing ["x"]) withEmptying
  exact ⟨offersOnly_withEmptying, r, q, hrun, (hrounds r q hrun).1,
    (hends offersOnly_withEmptying).1⟩

end Dialect

end TreeMacros
