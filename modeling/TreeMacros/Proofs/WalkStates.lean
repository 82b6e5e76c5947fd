import Mathlib
import TreeMacros.Proofs.Action
import TreeMacros.Walk.Rules

/-!
# States of a walk

A subtree can be visited in a state of its own. This module says when the state before it comes back
afterwards, with what it held, whatever is done to the state inside and however the visit ends. The
visit has to be a good one: whenever a state is entered or left it holds something, and it is not
in force already when it is entered.

What a walk enters and leaves is recorded in a log. The log also tells what the states hold that are
entered: what they held when they were made, or when they were last put out of force.
-/

namespace TreeMacros.Walk

open Act (keeps_pure keeps_get keeps_throw bind_ok get_run lift_bind_ok bind_error)

variable {m c : Nat}

/-! ## The log of a walk -/

/-- What happens to the states of a walk. The walk is recorded as it was right before, or, when a state
is put out of force, right before that. -/
inductive Event where
  /-- A state is made for a subtree. -/
  | made (n : Nat) (r : Record)
  | entered (n : Nat) (w : Walk)
  | left (n : Nat) (w : Walk)
  /-- The current state is replaced by another one. -/
  | replaced (w : Walk)

/-- Whether it can be said that the numbered state holds something. -/
def isFull (w : Walk) (n : Nat) : Bool :=
  match w.holds n with
  | .ok b => b
  | .error _ => false

theorem isFull_iff {w : Walk} {n : Nat} : w.isFull n ↔ w.holds n = .ok true := by
  unfold isFull
  split <;> simp_all

namespace Event

/-- A state that is entered or left holds something, and it is not in force already when it is
entered. -/
def Good : Event → Prop
  | entered n w => w.isFull n = true ∧ n ∉ w.stack
  | left n w => w.isFull n = true
  | _ => True

instance (e : Event) : Decidable e.Good :=
  match e with
  | entered n w => inferInstanceAs (Decidable (w.isFull n = true ∧ n ∉ w.stack))
  | left n w => inferInstanceAs (Decidable (w.isFull n = true))
  | made .. | replaced .. => isTrue trivial

end Event

/-- What has been known to be in the states, and what is known after an event. -/
def learn (known : Nat → Record) : Event → Nat → Record
  | .made n r => Function.update known n r
  | .entered _ _ => known
  | .left _ w | .replaced w => Function.update known w.current w.state

def learnAll (known : Nat → Record) (log : List Event) : Nat → Record := log.foldl learn known

/-- A state that is entered holds what it is known to hold: what it held when it was made, or when it
was last put out of force. -/
def Coherent (known : Nat → Record) : List Event → Prop
  | [] => True
  | .entered n w :: log => w.record n = known n ∧ Coherent known log
  | e :: log => Coherent (learn known e) log

def answerLog (visitLog : Value → Walk → List Event) : Request → Walk → List Event
  | .withState _ changes, w =>
    match changedState changes w with
    | (.ok r, w) => [.made w.states.length r]
    | _ => []
  | .replace _, w => if w.stack.isEmpty then [] else [.replaced w]
  | .visit v, w => visitLog v w
  | _, _ => []

def Program.log {α : Type} (visit : Value → M Value) (visitLog : Value → Walk → List Event) :
    Program α → Walk → List Event
  | .give _, _ | .fail _, _ => []
  | .ask r next, w =>
    answerLog visitLog r w ++ (next (answer visit r w).1).log visit visitLog (answer visit r w).2

/-- The events of visits to one value after another, up to the first that fails. -/
def eachLog (visit : Value → M Value) (visitLog : Value → Walk → List Event) :
    List Value → Walk → List Event
  | [], _ => []
  | v :: vs, w =>
    match visit v w with
    | (.ok _, t) => visitLog v w ++ eachLog visit visitLog vs t
    | (.error _, _) => visitLog v w

def treatLog (walker : Walker) (visit : Value → M Value) (visitLog : Value → Walk → List Event) :
    Value → Walk → List Event
  | .list xs, w => eachLog visit visitLog xs w
  | v, w => (walker v).log visit visitLog w

/-- The events of a section that is run in the numbered state. -/
def sectionLog {α : Type} (n : Option Nat) (act : M α) (log : Walk → List Event) (w : Walk) :
    List Event :=
  match n with
  | none => log w
  | some n =>
    match enter n w with
    | (.ok _, t) => .entered n w :: (log t ++ [.left n (act t).2])
    | (.error _, _) => []

def visitLog (walker : Walker) : Nat → Value → Walk → List Event
  | 0, _, _ => []
  | depth + 1, v, w =>
    sectionLog (w.registered? v) (treat walker (visit walker depth) (unmarked v))
      (treatLog walker (visit walker depth) (visitLog walker depth) (unmarked v)) (w.forget v)

def runLog (walker : Walker) (v : Value) (w : Walk) : List Event :=
  match Act.label v w with
  | (.ok v, w) => visitLog walker limit v w
  | (.error _, _) => []

/-! ## What is known of the states -/

section

variable {known : Nat → Record} {log more : List Event} {e : Event}

theorem learnAll_append (known : Nat → Record) (log more : List Event) :
    learnAll known (log ++ more) = learnAll (learnAll known log) more := List.foldl_append

theorem coherent_cons_iff : Coherent known (e :: log) ↔
    (∀ n w, e = .entered n w → w.record n = known n) ∧ Coherent (learn known e) log := by
  cases e with
  | entered n w => simp [Coherent, learn]
  | _ => simp [Coherent]

theorem coherent_append_iff :
    Coherent known (log ++ more) ↔ Coherent known log ∧ Coherent (learnAll known log) more := by
  induction log generalizing known with
  | nil => simp [Coherent, learnAll]
  | cons e log ih =>
    rw [List.cons_append, coherent_cons_iff, coherent_cons_iff, ih, and_assoc]
    rfl

end

/-- One state is in force above those of the stack, and of the others it is known what they hold. -/
structure Above (stack : List Nat) (known : Nat → Record) (w : Walk) : Prop where
  current : ∃ c, w.stack = c :: stack ∧ c ∉ stack
  known : ∀ n, n ∉ w.stack → w.record n = known n

/-- Running the action above the stack leaves what is below alone. -/
def Contained {α : Type} (stack : List Nat) (act : M α) (log : Walk → List Event) : Prop :=
  ∀ known w, Above stack known w → (∀ e ∈ log w, e.Good) →
    Coherent known (log w) ∧ Above stack (learnAll known (log w)) (act w).2 ∧
      ∀ n ∈ stack, (act w).2.record n = w.record n

/-! ## Single steps -/

/-- A step that leaves the states as they are. -/
structure SameStates (w t : Walk) : Prop where
  states : t.states = w.states
  stack : t.stack = w.stack

instance : IsPreorder Walk SameStates where
  refl _ := ⟨rfl, rfl⟩
  trans _ _ _ h h' := ⟨h'.states.trans h.states, h'.stack.trans h.stack⟩

theorem keeps_mark1 (n : Nat) (v : Value) : Act.Keeps SameStates (mark1 n v) := by
  intro w
  cases v <;> exact ⟨rfl, rfl⟩

theorem keeps_markEach (n : Nat) (v : Value) : Act.Keeps SameStates (markEach n v) := by
  unfold markEach
  split
  · exact (Act.Keeps.mapM fun x _ => keeps_mark1 n x).bind fun _ => keeps_pure _
  · exact keeps_mark1 n _

theorem sameStates_forget (w : Walk) (v : Value) : SameStates w (w.forget v) := by
  cases v <;> exact ⟨rfl, rfl⟩

theorem keeps_currentNumber : Act.Keeps (· = ·) currentNumber := by
  refine Act.keeps_get.bind fun w => ?_
  split
  · exact keeps_pure _
  · exact keeps_throw _

theorem keeps_changedState (changes : Dictionary) : Act.Keeps (· = ·) (changedState changes) := by
  have hcopy : Act.Keeps (· = ·) (do
      let r ← ((← get).record (← currentNumber)).copy
      r.update changes : M Record) :=
    Act.keeps_get.bind fun _ => keeps_currentNumber.bind fun _ =>
      (Act.keeps_lift _).bind fun _ => Act.keeps_lift _
  unfold changedState
  split
  · exact (keeps_throw _).bind fun _ => hcopy
  · exact hcopy

section

variable {α β : Type} {stack : List Nat} {known : Nat → Record} {w t : Walk} {log : Walk → List Event}

theorem Above.of_sameStates (h : Above stack known w) (ht : SameStates w t) :
    Above stack known t ∧ ∀ n, t.record n = w.record n := by
  have hrecord (n : Nat) : t.record n = w.record n := by rw [record, record, ht.states]
  refine ⟨⟨?_, fun n hn => ?_⟩, hrecord⟩
  · rw [ht.stack]
    exact h.current
  · rw [ht.stack] at hn
    rw [hrecord]
    exact h.known n hn

theorem contained_of_keeps {act : M α} (h : Act.Keeps SameStates act) :
    Contained stack act fun _ => [] := by
  intro known w hw _
  obtain ⟨habove, hrecord⟩ := hw.of_sameStates (h w)
  exact ⟨trivial, habove, fun n _ => hrecord n⟩

theorem record_setState (w : Walk) {n : Nat} (r : Record) (h : m ≠ n) :
    (w.setState n r).record m = w.record m := by
  rw [record, record, setState, List.getElem?_set_ne h.symm]

theorem record_addState (w : Walk) (r : Record) (h : m < w.states.length) :
    (w.addState r).record m = w.record m := by
  rw [record, record, addState, List.getElem?_append_left h]

theorem record_addState_self (w : Walk) (r : Record) :
    (w.addState r).record w.states.length = r := by
  simp [record, addState]

theorem record_addState_of_ne (w : Walk) (r : Record) (h : m ≠ w.states.length) :
    (w.addState r).record m = w.record m := by
  rcases Nat.lt_or_gt_of_ne h with hlt | hgt
  · exact w.record_addState r hlt
  · have hold : w.states[m]? = none := List.getElem?_eq_none (Nat.le_of_lt hgt)
    have hnew : (w.states ++ [r])[m]? = none := by
      apply List.getElem?_eq_none
      rw [List.length_append, List.length_singleton]
      exact hgt
    rw [record, record, addState, hold, hnew]

@[simp] theorem stack_addState (w : Walk) (r : Record) : (w.addState r).stack = w.stack := rfl

@[simp] theorem stack_pop (w : Walk) : w.pop.stack = w.stack.tail := rfl

@[simp] theorem stack_push (w : Walk) (n : Nat) (h : n < w.states.length) :
    (w.push n h).stack = n :: w.stack := rfl

@[simp] theorem record_pop (w : Walk) (n : Nat) : w.pop.record n = w.record n := rfl

@[simp] theorem record_push (w : Walk) (n m : Nat) (h : n < w.states.length) :
    (w.push n h).record m = w.record m := rfl

theorem currentNumber_run (h : w.stack = c :: stack) : currentNumber w = (.ok c, w) := by
  rw [currentNumber, bind_ok (get_run w), h]
  rfl

theorem current_eq (h : w.stack = c :: stack) : w.current = c := by
  rw [current, h]
  rfl

theorem contained_edit (f : Record → Except Error Record) :
    Contained stack (edit f) fun _ => [] := by
  intro known w hw _
  obtain ⟨c, hstack, hc⟩ := hw.current
  cases hf : f (w.record c) with
  | error e =>
    have hrun : edit f w = (.error e, w) := by
      rw [edit, bind_ok (currentNumber_run hstack), bind_ok (get_run w), hf]
      rfl
    rw [hrun]
    exact ⟨trivial, hw, fun n _ => rfl⟩
  | ok r =>
    have hrun : edit f w = (.ok (), w.setState c r) := by
      rw [edit, bind_ok (currentNumber_run hstack), bind_ok (get_run w),
        lift_bind_ok hf]
      rfl
    rw [hrun]
    refine ⟨trivial, ⟨⟨c, hstack, hc⟩, fun n hn => ?_⟩, fun n hn => ?_⟩
    · have hne : n ≠ c := by
        rintro rfl
        exact hn (by rw [setState, hstack]; exact List.mem_cons_self)
      rw [record_setState w r hne]
      exact hw.known n hn
    · have hne : n ≠ c := by
        rintro rfl
        exact hc hn
      exact record_setState w r hne

theorem contained_replace (r : Record) :
    Contained stack (replace r) fun w => if w.stack.isEmpty then [] else [.replaced w] := by
  intro known w hw _
  obtain ⟨c, hstack, hc⟩ := hw.current
  have hlt : w.states.length < (w.pop.addState r).states.length := by simp [addState, pop]
  have hrun : replace r w = (.ok (), (w.pop.addState r).push w.states.length hlt) := by
    rw [replace, bind_ok (currentNumber_run hstack)]
    rfl
  have hbelow : ∀ n ∈ stack, n < w.states.length := by
    intro n hn
    apply w.stack_lt
    rw [hstack]
    exact List.mem_cons_of_mem c hn
  have hpop : w.pop.stack = stack := by rw [stack_pop, hstack, List.tail_cons]
  have hlog : (if w.stack.isEmpty then [] else [Event.replaced w]) = [.replaced w] := by
    rw [hstack]
    rfl
  simp only [hrun, hlog]
  refine ⟨trivial, ⟨⟨w.states.length, ?_, ?_⟩, fun n hn => ?_⟩, fun n hn => ?_⟩
  · rw [stack_push, stack_addState, hpop]
  · exact fun hmem => Nat.lt_irrefl _ (hbelow _ hmem)
  · rw [stack_push, stack_addState, hpop, List.mem_cons, not_or] at hn
    rw [record_push, record_addState_of_ne w.pop r hn.1, record_pop, learnAll, List.foldl_cons,
      List.foldl_nil, learn, current_eq hstack]
    by_cases hnc : n = c
    · rw [hnc, Function.update_self, state, current_eq hstack]
    · rw [Function.update_of_ne hnc]
      apply hw.known
      rw [hstack, List.mem_cons, not_or]
      exact ⟨hnc, hn.2⟩
  · rw [record_push, record_addState w.pop r (hbelow n hn), record_pop]

end

theorem bind_pure_snd {α β : Type} (act : M α) (f : α → β) (w : Walk) :
    ((act >>= fun a => pure (f a)) w).2 = (act w).2 := by
  match h : act w with
  | (.ok a, t) => rw [bind_ok h]; rfl
  | (.error e, t) => rw [bind_error h]

section

variable {stack : List Nat} {visit : Value → M Value} {visitLog : Value → Walk → List Event}

theorem contained_withState (v : Value) (changes : Dictionary) :
    Contained stack (withState v changes) (answerLog visitLog (.withState v changes)) := by
  intro known w hw _
  have hsame : w = (changedState changes w).2 := keeps_changedState changes w
  rw [answerLog]
  match hmade : changedState changes w with
  | (.error e, t) =>
    obtain rfl : w = t := by rw [hmade] at hsame; exact hsame
    have hrun : withState v changes w = (.error e, w) := bind_error hmade
    rw [hrun]
    exact ⟨trivial, hw, fun n _ => rfl⟩
  | (.ok r, t) =>
    obtain rfl : w = t := by rw [hmade] at hsame; exact hsame
    have hrun : withState v changes w = markEach w.states.length v (w.addState r) :=
      bind_ok hmade
    have hnew : w.states.length ∉ w.stack := fun hmem => Nat.lt_irrefl _ (w.stack_lt _ hmem)
    have hadded : Above stack (learnAll known [.made w.states.length r]) (w.addState r) := by
      refine ⟨hw.current, fun n hn => ?_⟩
      rw [learnAll, List.foldl_cons, List.foldl_nil, learn]
      by_cases hnt : n = w.states.length
      · rw [hnt, record_addState_self, Function.update_self]
      · rw [record_addState_of_ne w r hnt, Function.update_of_ne hnt]
        exact hw.known n hn
    obtain ⟨habove, hrecord⟩ := hadded.of_sameStates (keeps_markEach w.states.length v _)
    rw [hrun]
    refine ⟨trivial, habove, fun n hn => ?_⟩
    obtain ⟨c, hstack, -⟩ := hw.current
    have hmem : n ∈ w.stack := by
      rw [hstack]
      exact List.mem_cons_of_mem c hn
    rw [hrecord, record_addState w r (w.stack_lt n hmem)]

theorem Contained.andThen {α β : Type} {known : Nat → Record} {w : Walk} {act : M α}
    {next : M β} {log nextLog : Walk → List Event} (hact : Contained stack act log)
    (hnext : Contained stack next nextLog) (hw : Above stack known w)
    (hgood : ∀ e ∈ log w ++ nextLog (act w).2, e.Good) :
    Coherent known (log w ++ nextLog (act w).2) ∧
      Above stack (learnAll known (log w ++ nextLog (act w).2)) (next (act w).2).2 ∧
      ∀ n ∈ stack, (next (act w).2).2.record n = w.record n := by
  obtain ⟨hcoherent, habove, hrecord⟩ :=
    hact known w hw fun e he => hgood e (List.mem_append_left _ he)
  obtain ⟨hcoherent', habove', hrecord'⟩ :=
    hnext _ _ habove fun e he => hgood e (List.mem_append_right _ he)
  rw [coherent_append_iff, learnAll_append]
  exact ⟨⟨hcoherent, hcoherent'⟩, habove', fun n hn => (hrecord' n hn).trans (hrecord n hn)⟩

theorem contained_answer (hvisit : ∀ v, Contained stack (visit v) (visitLog v)) (r : Request) :
    Contained stack (answer visit r) (answerLog visitLog r) := by
  cases r with
  | state =>
    exact contained_of_keeps <| Act.keeps_get.bind fun _ =>
      Act.Keeps.bind (fun w => (keeps_currentNumber w) ▸ refl_of SameStates w) fun _ => keeps_pure _
  | edit f => exact contained_edit f
  | replace r => exact contained_replace r
  | withState v changes => exact contained_withState v changes
  | collect c => exact contained_of_keeps fun w => ⟨rfl, rfl⟩
  | visit v => exact hvisit v
  | change act => exact contained_of_keeps fun w => ⟨rfl, rfl⟩
  | memory f => exact contained_of_keeps fun w => ⟨rfl, rfl⟩

theorem contained_run {α : Type} (hvisit : ∀ v, Contained stack (visit v) (visitLog v))
    (p : Program α) : Contained stack (p.run visit) (p.log visit visitLog) := by
  induction p with
  | give a => exact contained_of_keeps (keeps_pure a)
  | fail e => exact contained_of_keeps (keeps_throw e)
  | ask r next ih =>
    intro known w hw hgood
    have hrun : (Program.ask r next).run visit w =
        (next (answer visit r w).1).run visit (answer visit r w).2 := bind_ok rfl
    rw [hrun]
    exact (contained_answer hvisit r).andThen (ih (answer visit r w).1) hw hgood

theorem contained_mapM (hvisit : ∀ v, Contained stack (visit v) (visitLog v)) (vs : List Value) :
    Contained stack (vs.mapM visit) (eachLog visit visitLog vs) := by
  induction vs with
  | nil => exact contained_of_keeps (keeps_pure [])
  | cons v vs ih =>
    intro known w hw hgood
    match hv : visit v w with
    | (.error e, t) =>
      have hlog : eachLog visit visitLog (v :: vs) w = visitLog v w := by rw [eachLog, hv]
      have hrun : ((v :: vs).mapM visit w).2 = (visit v w).2 := by
        rw [List.mapM_cons, bind_error hv, hv]
      rw [hlog] at hgood ⊢
      rw [hrun]
      exact hvisit v known w hw hgood
    | (.ok u, t) =>
      have hlog : eachLog visit visitLog (v :: vs) w =
          visitLog v w ++ eachLog visit visitLog vs (visit v w).2 := by rw [eachLog, hv]
      have hrun : ((v :: vs).mapM visit w).2 = (vs.mapM visit (visit v w).2).2 := by
        rw [List.mapM_cons, bind_ok hv, hv, bind_pure_snd]
      rw [hlog] at hgood ⊢
      rw [hrun]
      exact (hvisit v).andThen ih hw hgood

theorem contained_treat (walker : Walker) (hvisit : ∀ v, Contained stack (visit v) (visitLog v))
    (v : Value) :
    Contained stack (treat walker visit v) (treatLog walker visit visitLog v) := by
  cases v with
  | list xs =>
    intro known w hw hgood
    rw [treat, bind_pure_snd]
    exact contained_mapM hvisit xs known w hw hgood
  | _ => exact contained_run hvisit _

end

/-! ## Sections -/

section

variable {α : Type} {n : Nat} {known : Nat → Record} {w : Walk} {act : M α} {log : Walk → List Event}

theorem lt_of_holds (h : w.holds n = .ok true) : n < w.states.length := by
  by_contra hn
  have hnone : w.states[n]? = none := List.getElem?_eq_none (Nat.le_of_not_lt hn)
  rw [holds, record, hnone] at h
  cases h

theorem enter_run (h : w.holds n = .ok true) : enter n w = (.ok (), w.push n (lt_of_holds h)) := by
  rw [enter, bind_ok (get_run w), lift_bind_ok h]
  simp only [↓reduceIte, Act.modify_run, lt_of_holds h, ↓reduceDIte]

theorem leave_run {stack : List Nat} (h : w.holds n = .ok true) (hstack : w.stack = c :: stack) :
    leave n w = (.ok (), w.pop) := by
  rw [leave, bind_ok (get_run w), lift_bind_ok h, if_pos rfl,
    bind_ok (get_run w), hstack]
  rfl

theorem inState_restores (hact : Contained w.stack act log)
    (hknown : ∀ m, m ∉ w.stack → w.record m = known m)
    (hgood : ∀ e ∈ sectionLog (some n) act log w, e.Good) :
    Coherent known (sectionLog (some n) act log w) ∧ (inState (some n) act w).2.stack = w.stack ∧
      (∀ m ∈ w.stack, (inState (some n) act w).2.record m = w.record m) ∧
      ∀ m, m ∉ w.stack → (inState (some n) act w).2.record m =
        learnAll known (sectionLog (some n) act log w) m := by
  cases hholds : w.holds n with
  | error e =>
    have henter : enter n w = (.error e, w) := by
      rw [enter, bind_ok (get_run w)]
      exact bind_error (by rw [Act.lift_run, hholds])
    have hrun : inState (some n) act w = (.error e, w) := bind_error henter
    have hlog : sectionLog (some n) act log w = [] := by rw [sectionLog, henter]
    rw [hrun, hlog]
    exact ⟨trivial, rfl, fun _ _ => rfl, hknown⟩
  | ok b =>
    have hentered : .entered n w ∈ sectionLog (some n) act log w := by
      have henter : ∃ t, enter n w = (.ok (), t) := by
        rw [enter, bind_ok (get_run w), lift_bind_ok hholds]
        cases b <;> exact ⟨_, rfl⟩
      obtain ⟨t, ht⟩ := henter
      rw [sectionLog, ht]
      exact List.mem_cons_self
    obtain ⟨hfull, hn⟩ : w.holds n = .ok true ∧ n ∉ w.stack := (hgood _ hentered).imp_left isFull_iff.mp
    generalize hinside : w.push n (lt_of_holds hfull) = inside
    have henter : enter n w = (.ok (), inside) := by rw [enter_run hfull, hinside]
    have hlog : sectionLog (some n) act log w =
        .entered n w :: (log inside ++ [.left n (act inside).2]) := by rw [sectionLog, henter]
    have hrecordInside (m : Nat) : inside.record m = w.record m := by rw [← hinside, record_push]
    have habove : Above w.stack known inside := by
      refine ⟨⟨n, by rw [← hinside, stack_push], hn⟩, fun m hm => ?_⟩
      rw [← hinside, stack_push, List.mem_cons, not_or] at hm
      rw [hrecordInside]
      exact hknown m hm.2
    rw [hlog] at hgood ⊢
    obtain ⟨hcoherent, hafter, hrecord⟩ := hact known inside habove fun e he => hgood e (by simp [he])
    obtain ⟨c, hstack, -⟩ := hafter.current
    have hleft : (act inside).2.holds n = .ok true :=
      isFull_iff.mp (hgood (.left n (act inside).2) (by simp))
    have hrun : (inState (some n) act w).2 = (act inside).2.pop := by
      rw [inState, bind_ok henter]
      have hattempt : Act.attempt act inside = (.ok (act inside).1, (act inside).2) := rfl
      rw [bind_ok hattempt, bind_ok (leave_run hleft hstack)]
      rfl
    rw [hrun]
    refine ⟨?_, ?_, fun m hm => ?_, fun m hm => ?_⟩
    · rw [coherent_cons_iff, coherent_append_iff]
      refine ⟨?_, hcoherent, trivial⟩
      rintro n w ⟨⟩
      exact hknown n hn
    · rw [stack_pop, hstack, List.tail_cons]
    · rw [record_pop, hrecord m hm, hrecordInside]
    · have hlearn : learnAll known (.entered n w :: (log inside ++ [.left n (act inside).2])) =
          Function.update (learnAll known (log inside)) c ((act inside).2.record c) := by
        rw [learnAll, List.foldl_cons, ← learnAll, learnAll_append]
        simp only [learnAll, List.foldl_cons, List.foldl_nil, learn, state, current_eq hstack]
      rw [record_pop, hlearn]
      by_cases hmc : m = c
      · rw [hmc, Function.update_self]
      · rw [Function.update_of_ne hmc]
        apply hafter.known
        rw [hstack, List.mem_cons, not_or]
        exact ⟨hmc, hm⟩

theorem contained_inState (n? : Option Nat) (hact : ∀ stack, Contained stack act log)
    (stack : List Nat) : Contained stack (inState n? act) (sectionLog n? act log) := by
  cases n? with
  | none => exact hact stack
  | some n =>
    intro known w hw hgood
    obtain ⟨hcoherent, hstack, hrecord, hknown⟩ := inState_restores (hact w.stack) hw.known hgood
    obtain ⟨c, hc, hnew⟩ := hw.current
    refine ⟨hcoherent, ⟨⟨c, hstack.trans hc, hnew⟩, fun m hm => ?_⟩, fun m hm => ?_⟩
    · rw [hstack] at hm
      exact hknown m hm
    · apply hrecord
      rw [hc]
      exact List.mem_cons_of_mem c hm

end

/-! ## Visits -/

theorem visit_succ_run (walker : Walker) (depth : Nat) (v : Value) (w : Walk) :
    visit walker (depth + 1) v w =
      inState (w.registered? v) (treat walker (visit walker depth) (unmarked v)) (w.forget v) := rfl

theorem contained_visit (walker : Walker) (depth : Nat) (stack : List Nat) (v : Value) :
    Contained stack (visit walker depth v) (visitLog walker depth v) := by
  induction depth generalizing stack v with
  | zero => exact contained_of_keeps (keeps_throw _)
  | succ depth ih =>
    intro known w hw hgood
    have htreat (stack : List Nat) := contained_treat walker (fun u => ih stack u) (unmarked v)
    obtain ⟨hforget, hrecord⟩ := hw.of_sameStates (sameStates_forget w v)
    obtain ⟨hcoherent, habove, hrest⟩ :=
      contained_inState (w.registered? v) htreat stack known (w.forget v) hforget hgood
    rw [visit_succ_run]
    exact ⟨hcoherent, habove, fun n hn => (hrest n hn).trans (hrecord n)⟩

def counter (n : Int) : Dictionary := [(.str "k", .int n)]

/-- Visits a name in a state of its own, and fails there after a change to the state. -/
def stumbling : Walker
  | .node .name _ =>
    .ask (.edit fun _ => .ok (Record.ofEntries (counter 2))) fun _ => .fail (.fault .tooDeep)
  | _ => .ask (.withState (.node .name []) (counter 1)) fun
    | .ok v => .ask (.visit v) fun _ => .give .none
    | .error e => .fail e

/-- A walk with a state for a subtree. -/
def registering : Walk :=
  { start (Record.ofEntries (counter 0)) with
    states := [Record.ofEntries (counter 0), Record.ofEntries (counter 1)]
    stack_lt := by decide }

/-- The walker of the rules visits the elements of a list in a state of their own, and each name adds
ten. -/
def adding : List Rule :=
  [⟨some "List", [], [.withState "elts" (counter 1)]⟩,
    ⟨some "Name", [], [.collectState, .increase "k" (.int 10)]⟩]

end TreeMacros.Walk
