import TreeMacros.Console.Line
import TreeMacros.Console.Notebook
import TreeMacros.Proofs.Capturing
import TreeMacros.Proofs.Loading

/-!
# The bindings of a session

An input brings in what its macro imports bind, provided that they succeed; all else that is done
with it, however it ends, leaves the bindings of the session alone. So the bindings after a run of
inputs are those at the start, updated by what each of them has brought in. This holds at the line
console, where a question is one of the inputs that may import, and in a notebook.
-/

namespace TreeMacros

open Act (attempt bind_ok get_run)

variable {statement : Value} {filename module : String} {allowLocal : Bool}
  {members bound bound' : Bindings} {id : Nat}

theorem Act.Keeps.after {σ α β : Type} {R : σ → σ → Prop} [IsPreorder σ R] {f : α → Act σ β}
    (h : ∀ a, Keeps R (f a)) (x : Act σ α) (s : σ) : R (x s).2 ((x >>= f) s).2 := by
  match hx : x s with
  | (.ok a, t) =>
    rw [bind_ok hx]
    exact h a t
  | (.error e, t) =>
    rw [bind_error hx]
    exact refl t

/-- What the macro imports of a tree bind in state `w`, if they succeed. -/
def imported? (filename : String) (w : World) (v : Value) : Option Bindings :=
  match (findMacros v filename true w).1 with
  | .ok r => some r.2
  | .error _ => none

/-- No statement at the top level of the tree is a macro import. -/
def HasNoMacroImports (v : Value) : Prop :=
  ∃ body ss, v.attr "body" = .ok body ∧ body.elements = .ok ss ∧
    ∀ s ∈ ss, s.isMarkedImport macrosMark = .ok false

namespace Bindings

/-- The bindings after an input that may have brought in new ones. -/
def updated (bs : Bindings) : Option Bindings → Bindings
  | some new => insertAll bs new
  | none => bs

/-- The bindings at the end are those at the start, updated from left to right: the last that binds
a name counts. -/
structure Update (start : Bindings) (gained : List Bindings) (final : Bindings) : Prop where
  eq_foldl : final = gained.foldl insertAll start
  get? : ∀ name, final.get? name =
    (gained.reverse.findSome? fun bs => bs.get? name).or (start.get? name)

theorem Update.of_foldl {gained : List Bindings} (h : ∀ bs ∈ gained, bs.Distinct)
    (start : Bindings) : Update start gained (gained.foldl insertAll start) where
  eq_foldl := rfl
  get? name := by
    induction gained generalizing start with
    | nil => rfl
    | cons bs gained ih =>
      rw [List.foldl_cons, ih (fun cs hcs => h cs (by simp [hcs])), List.reverse_cons,
        List.findSome?_append, get?_insertAll (h bs (by simp))]
      cases gained.reverse.findSome? fun bs => bs.get? name <;> simp

end Bindings

/-! ## What the imports of a tree bind -/

namespace Import

theorem distinct_bindNames {items : List Value} (hb : bound.Distinct)
    (h : items.foldlM (bindName statement filename module allowLocal members) bound = .ok bound') :
    bound'.Distinct :=
  of_bindNames (fun _ key _ b _ hb => hb.insert key b) hb h

open Act (Ensures ensures_pure)

/-- Nothing is asked of the state. -/
def anyWorld (_ : World) : Prop := True

theorem ensures_distinct_bindingsOf (statement : Value) (filename : String)
    (again allowLocal : Bool) :
    Ensures anyWorld (bindingsOf statement filename again allowLocal) fun r => r.2.Distinct := by
  intro w r t _ hrun
  obtain ⟨_, _, _, _, -, -, hbound⟩ := bindingsOf_eq_ok hrun
  have hnil : Bindings.Distinct [] := List.nodup_nil
  exact ⟨trivial, distinct_bindNames hnil hbound⟩

theorem ensures_distinct_takeImports (filename : String) (again : Bool) (body : Value)
    (ss : List Value) :
    Ensures anyWorld (takeImports filename again body ss) fun r => r.2.Distinct := by
  induction ss with
  | nil => exact ensures_pure List.nodup_nil
  | cons s ss ih =>
    refine Ensures.bind (Q := fun _ => True) (fun _ _ _ _ _ => ⟨trivial, trivial⟩) fun marked _ => ?_
    refine Ensures.ite ?_ (ih.bind fun r hr => ensures_pure hr)
    refine (ensures_distinct_bindingsOf s filename again true).bind fun r hr => ?_
    refine Ensures.bind (Q := fun _ => True) (fun _ _ _ _ _ => ⟨trivial, trivial⟩) fun _ _ => ?_
    exact ih.bind fun more _ => ensures_pure (hr.insertAll more.2)

theorem takeImports_of_unmarked {again : Bool} {body : Value} {ss : List Value}
    (h : ∀ s ∈ ss, s.isMarkedImport macrosMark = .ok false) (w : World) :
    takeImports filename again body ss w = (.ok (ss, []), w) := by
  induction ss with
  | nil => rfl
  | cons s ss ih =>
    rw [takeImports, Act.lift_bind_ok (h s (by simp))]
    exact bind_ok (ih fun s hs => h s (by simp [hs]))

end Import

theorem distinct_imported? {w : World} {v : Value} {bs : Bindings}
    (h : imported? filename w v = some bs) : bs.Distinct := by
  unfold imported? at h
  split at h
  next r hr =>
    cases h
    have hrun : findMacros v filename true w = (.ok r, (findMacros v filename true w).2) :=
      Prod.ext hr rfl
    obtain ⟨body, -, hrun⟩ := Act.lift_bind_eq_ok.mp hrun
    obtain ⟨ss, -, hrun⟩ := Act.lift_bind_eq_ok.mp hrun
    obtain ⟨⟨ss', bound⟩, t, htake, hrun⟩ := Act.bind_eq_ok.mp hrun
    have hbound := (Import.ensures_distinct_takeImports filename true body ss w _ t trivial htake).2
    simp only at hrun
    split at hrun <;> cases hrun <;> exact hbound
  next => cases h

theorem imported?_of_hasNoMacroImports {v : Value} (h : HasNoMacroImports v) (filename : String)
    (w : World) : imported? filename w v = some [] := by
  obtain ⟨body, ss, hbody, hss, hnone⟩ := h
  have hrun : ((findMacros v filename true w).1.map (·.2)) = .ok [] := by
    rw [findMacros, Act.lift_bind_ok hbody, Act.lift_bind_ok hss,
      bind_ok (Import.takeImports_of_unmarked hnone w)]
    cases body <;> rfl
  unfold imported?
  cases hr : (findMacros v filename true w).1 with
  | error e =>
    rw [hr] at hrun
    cases hrun
  | ok r =>
    rw [hr] at hrun
    cases r
    cases hrun
    rfl

/-! ## One input -/

theorem Session.expander_expand (v : Value) (s : Session) :
    (Session.expand v s).2.expander =
      { s.expander with
        bindings := s.expander.bindings.updated (imported? s.expander.filename s.world v) } := by
  rw [Session.expand, bind_ok (get_run s), imported?]
  match hfind : findMacros v s.expander.filename true s.world with
  | (.error e, w) =>
    have hlift : Session.lift (findMacros v s.expander.filename true) s =
        (.error e, { s with world := w }) := by
      simp only [Session.lift, hfind]
    rw [Act.bind_error hlift]
    rfl
  | (.ok (v', bound), w) =>
    have hlift : Session.lift (findMacros v s.expander.filename true) s =
        (.ok (v', bound), { s with world := w }) := by
      simp only [Session.lift, hfind]
    rw [bind_ok hlift]
    cases bound with
    | nil => rfl
    | cons b bound => rfl

namespace Console

open Bindings (updated Update)

namespace Line

open Act (Keeps keeps_pure keeps_throw keeps_get keeps_lift)

/-- The tree that is searched for macro imports: a question is the call that it stands for. -/
def heard (c : Line) (text : String) : Option Value :=
  if text = "macros?" ∨ c.isIncomplete (meaning text) = true then none
  else c.session.world.parse (meaning text)

/-- What an input brings in. -/
def gain (c : Line) (text : String) : Option Bindings :=
  (c.heard text).bind (imported? c.session.expander.filename c.session.world)

def next (c : Line) (text : String) : Line := (submit text c).2

def SameExpander (c d : Line) : Prop := d.session.expander = c.session.expander

instance : IsPreorder Line SameExpander where
  refl _ := rfl
  trans _ _ _ h h' := h'.trans h

theorem keeps_emit (e : Event) : Keeps SameExpander (emit e) := fun _ => rfl

theorem keeps_liftLift {α : Type} (act : Expansion α) :
    Keeps SameExpander (lift (Session.lift act)) := fun _ => rfl

theorem keeps_runInternal (text : String) : Keeps SameExpander (runInternal text) :=
  (keeps_liftLift _).bind fun _ => (keeps_lift _).bind fun _ => keeps_emit _

theorem keeps_refresh : Keeps SameExpander refresh := by
  have hclear : Keeps SameExpander (modify fun c =>
      { c with session := { c.session with hasChanged := false } } : M Unit) := fun _ => rfl
  refine keeps_get.bind fun c => Keeps.ite (keeps_pure _) (hclear.bind fun _ => ?_)
  refine keeps_get.bind fun d => Keeps.forM fun e _ => (keeps_lift _).bind fun statement => ?_
  cases statement with
  | some text => exact keeps_runInternal text
  | none => exact keeps_pure _

theorem parse_none {c : Line} {text : String} (h : c.session.world.parse text = none) :
    lift (Session.lift (Expansion.parse text)) c =
      (.error (.fault (.badSource (Text.Layout.failure text))), c) := by
  simp only [lift, Session.lift, Expansion.parse, bind_ok (get_run c.session.world), h]
  rfl

theorem parse_some {c : Line} {text : String} {tree : Value}
    (h : c.session.world.parse text = some tree) :
    lift (Session.lift (Expansion.parse text)) c = (.ok tree, c) := by
  simp only [lift, Session.lift, Expansion.parse, bind_ok (get_run c.session.world), h]
  rfl

theorem expander_compile (text : String) (c : Line) :
    (compile text c).2.session.expander =
      { c.session.expander with
        bindings := c.session.expander.bindings.updated ((c.session.world.parse text).bind
          (imported? c.session.expander.filename c.session.world)) } := by
  cases hparse : c.session.world.parse text with
  | none =>
    rw [compile, Act.bind_error (parse_none hparse)]
    rfl
  | some tree =>
    rw [compile, bind_ok (parse_some hparse)]
    have hrest : ∀ v : Value, Keeps SameExpander
        (do return .node .interactive [("body", ← v.attr "body")] : M Value) :=
      fun v => (keeps_lift _).bind fun _ => keeps_pure _
    exact (Keeps.after hrest (lift (Session.expand tree)) c).trans
      (Session.expander_expand tree c.session)

theorem expander_runText (text : String) (c : Line) :
    (runText text c).2.session.expander =
      { c.session.expander with
        bindings := c.session.expander.bindings.updated
          ((if c.isIncomplete text then none else c.session.world.parse text).bind
            (imported? c.session.expander.filename c.session.world)) } := by
  rw [runText, bind_ok (get_run c)]
  split
  · rfl
  · refine Eq.trans (Keeps.after (R := SameExpander) (fun r => ?_) (attempt (compile text)) c)
      (expander_compile text c)
    cases r with
    | ok tree => exact (keeps_emit _).bind fun _ => keeps_refresh.bind fun _ => keeps_pure _
    | error e =>
      refine Keeps.ite ((keeps_emit _).bind fun _ => keeps_pure _) (Keeps.ite ?_ ?_)
      · exact (keeps_emit _).bind fun _ => keeps_pure _
      · exact (keeps_throw _).bind fun _ => keeps_pure _

theorem expander_submit (text : String) (c : Line) :
    (submit text c).2.session.expander =
      { c.session.expander with
        bindings := c.session.expander.bindings.updated (c.gain text) } := by
  rw [submit, gain, heard]
  by_cases hmacros : text = "macros?"
  · have hquiet : Keeps SameExpander (do
        let x := (← get).session.expander
        emit (.write (← lift (Session.lift x.describe)))
        return false : M Bool) :=
      keeps_get.bind fun _ => (keeps_liftLift _).bind fun _ => (keeps_emit _).bind fun _ =>
        keeps_pure _
    rw [if_pos (by simpa using hmacros), if_pos (.inl hmacros)]
    exact hquiet c
  · rw [if_neg (by simpa using hmacros), expander_runText]
    simp only [hmacros, false_or]

end Line

namespace Notebook

def bindings (n : Notebook) (id : Nat) : Bindings := (n.extension id).expander.bindings

/-- What a tree brings in, where it is given to an extension. -/
def gain (id : Nat) (n : Notebook) (tree : Value) : Option Bindings :=
  imported? (n.extension id).expander.filename n.world tree

/-- The state of the notebook after a tree has been given to an extension. -/
def next (id : Nat) (n : Notebook) (tree : Value) : Notebook := (transform id tree n).2

theorem extension_setExtension {n : Notebook} (hid : id < n.extensions.length) (e : Extension) :
    (n.setExtension id e).extension id = e := by
  simp [setExtension, extension, hid]

/-- The state of the notebook after an extension has expanded a tree. -/
def expanded (id : Nat) (tree : Value) (n : Notebook) : Notebook :=
  (inSession id (Session.expand tree) n).2

theorem length_expanded (id : Nat) (tree : Value) (n : Notebook) :
    (expanded id tree n).extensions.length = n.extensions.length := List.length_set

theorem bindings_expanded {n : Notebook} (hid : id < n.extensions.length) (tree : Value) :
    (expanded id tree n).bindings id = (n.bindings id).updated (gain id n tree) := by
  have hexpand := congrArg Expander.bindings (Session.expander_expand tree
    ⟨n.world, (n.extension id).expander, (n.extension id).hasChanged⟩)
  exact (congrArg (fun e : Extension => e.expander.bindings)
    (extension_setExtension hid _)).trans hexpand

theorem transform_snd (id : Nat) (tree : Value) (n : Notebook) :
    (transform id tree n).2 = expanded id tree n ∨
    (transform id tree n).2 = (expanded id tree n).setExtension id
      { (expanded id tree n).extension id with source := .placeholder } := by
  match hrun : inSession id (Session.expand tree) n with
  | (r, m) =>
    have hattempt : attempt (inSession id (Session.expand tree)) n = (.ok r, m) := by
      simp only [attempt, hrun]
    rw [transform, bind_ok hattempt, expanded, hrun]
    cases r with
    | ok v => exact .inr rfl
    | error e => exact .inl rfl

theorem length_transform (id : Nat) (tree : Value) (n : Notebook) :
    (transform id tree n).2.extensions.length = n.extensions.length := by
  rcases transform_snd id tree n with h | h
  · rw [h, length_expanded]
  · rw [h, ← length_expanded id tree n]
    exact List.length_set

theorem bindings_transform {n : Notebook} (hid : id < n.extensions.length) (tree : Value) :
    (transform id tree n).2.bindings id = (n.bindings id).updated (gain id n tree) := by
  rw [← bindings_expanded hid tree]
  rcases transform_snd id tree n with h | h
  · rw [h]
  · rw [h, bindings, extension_setExtension (by rw [length_expanded]; exact hid)]
    rfl

end Notebook

/-! ## A run of inputs -/

section

variable {σ ι : Type} (step : σ → ι → σ) (gain : σ → ι → Option Bindings)

/-- What inputs bring in one after the other, each in the state that those before have left. -/
def gains : σ → List ι → List Bindings
  | _, [] => []
  | s, i :: is => (gain s i).toList ++ gains (step s i) is

theorem update_of_step {P : σ → Prop} {V : σ → Bindings}
    (hP : ∀ s i, P s → P (step s i))
    (hstep : ∀ s i, P s → V (step s i) = (V s).updated (gain s i))
    (hdistinct : ∀ s i bs, gain s i = some bs → bs.Distinct) {s : σ} (hs : P s) (is : List ι) :
    Update (V s) (gains step gain s is) (V (is.foldl step s)) := by
  have hfold : V (is.foldl step s) = (gains step gain s is).foldl Bindings.insertAll (V s) := by
    induction is generalizing s with
    | nil => rfl
    | cons i is ih =>
      rw [List.foldl_cons, ih (hP s i hs), gains, List.foldl_append, hstep s i hs]
      cases gain s i <;> rfl
  have hall : ∀ bs ∈ gains step gain s is, bs.Distinct := by
    clear hfold hs
    induction is generalizing s with
    | nil => simp [gains]
    | cons i is ih =>
      intro bs hbs
      rcases List.mem_append.mp hbs with hbs | hbs
      · exact hdistinct s i bs (Option.mem_toList.mp hbs)
      · exact ih bs hbs
  rw [hfold]
  exact .of_foldl hall (V s)

end

def dotted (first : String) (rest : List String) : Value :=
  rest.foldl (fun v name => .node .attributeRef [("value", v), ("attr", .str name),
    ("ctx", .node .load [])]) (.node .name [("id", .str first), ("ctx", .node .load [])])

/-- The tree of a question that is closed early, so that a macro import can follow. -/
def closedEarly : Value :=
  .node .module [("body", .list
    [.node .exprStmt [("value", .node .call [("func", dotted "mcpyrate" ["repl", "utils", "doc"]),
      ("args", .list [.node .constant [("value", .int 0)]]), ("keywords", .list [])])],
     .node .importFrom [("module", .str "d"),
       ("names", .list [.node .importAlias [("name", .str "macros"), ("asname", .none)],
         .node .importAlias [("name", .str "m"), ("asname", .none)]]),
       ("level", .int 0)],
     .node .exprStmt [("value", .node .constant [("value", .int 0)])]])]

/-- A state in which a module has a macro, and that tree can be parsed. -/
def withModule : World :=
  { World.start (.ofQueue []) with
    modules := [("d", ⟨[("m", .transformer (.builtIn "quotes" "q"))], none, false, none⟩)]
    parse := fun s =>
      if s = "mcpyrate.repl.utils.doc(0); from d import macros, m; (0)" then some closedEarly
      else none }

private theorem endsWith_iff_suffix (s t : String) :
    s.endsWith t ↔ t.toList <:+ s.toList := by
  rw [String.endsWith_eq_endsWith_toSlice, String.Slice.endsWith_string_iff, String.copy_toSlice]

private theorem meaning_question : Line.meaning "0); from d import macros, m; (0?" =
    "mcpyrate.repl.utils.doc(0); from d import macros, m; (0)" := by
  have hsource : ¬"0); from d import macros, m; (0?".endsWith "??" := by
    rw [endsWith_iff_suffix]
    decide
  have hdoc : "0); from d import macros, m; (0?".endsWith "?" := by
    rw [endsWith_iff_suffix]
    decide
  rw [Line.meaning, if_neg hsource, if_pos hdoc]
  decide +kernel

end Console

end TreeMacros
