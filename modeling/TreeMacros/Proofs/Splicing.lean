import Mathlib
import TreeMacros.Proofs.Placement
import TreeMacros.Splice

/-!
# What splicing keeps

The body of a module is spliced into the template of a dialect: its docstring, its imports with a
meaning and its list of public names go to the top, what is left goes to the place that the
template marks. The main statement says when no statement is lost and none is there twice.
-/

namespace TreeMacros

open Value hiding none set
open Attrs (get?)

variable {name mark : String} {v : Value} {j : Kind} {page vs : List Value}

private theorem run_mapM_cons {σ α β : Type} {f : α → StateT σ (Except Error) β} {x : α}
    {xs : List α} {s t u : σ} {b : β} {bs : List β} (hx : (f x).run s = .ok (b, t))
    (hxs : (xs.mapM f).run t = .ok (bs, u)) : ((x :: xs).mapM f).run s = .ok (b :: bs, u) := by
  rw [List.mapM_cons, StateT.run_bind, hx]
  simp only [bind, Except.bind, StateT.run, StateT.bind] at hxs ⊢
  rw [hxs]
  rfl

namespace Splice

/-! ## Reading statements -/

/-- Whether a test can be made and says yes. -/
def holds : Except Error Bool → Bool
  | .ok b => b
  | .error _ => false

/-- A name has an identifier. -/
def isNamed (v : Value) : Bool := !v.isKind .name || (v.attr? "id").any (·.isText)

/-- The parts of a node that splicing looks at are there. -/
def givesParts (k : Kind) (as : Attrs) : Bool :=
  match k with
  | .exprStmt => (get? as "value").any isNamed
  | .assign =>
    match get? as "targets" with
    | some (.list targets) => targets.head?.all isNamed
    | _ => false
  | .importFrom =>
    match get? as "names" with
    | some (.list (first :: _)) => first.isKind .importAlias && (first.attr? "name").any (·.isText)
    | _ => false
  | _ => true

section

variable {k : Kind} {as : Attrs} {tag : Value}

private theorem attr_of_any {p : Value → Bool} (name : String) (h : (v.attr? name).any p) :
    ∃ w, v.attr name = .ok w ∧ p w := by
  cases hw : v.attr? name with
  | none => simp [hw] at h
  | some w => exact ⟨w, by simp only [attr, hw], by simpa [hw] using h⟩

private theorem holds_iff {r : Except Error Bool} : r = .ok (holds r) ↔ ∃ b, r = .ok b := by
  cases r <;> simp [holds]

private theorem isKind_node : (node k as).isKind j = (k == j) := rfl

theorem isTag_ok (h : givesParts k as) :
    isTag tag (.node k as) = .ok (holds (isTag tag (.node k as))) := by
  rw [holds_iff]
  cases k with
  | exprStmt =>
    cases hv : get? as "value" with
    | none => simp [givesParts, hv] at h
    | some v =>
      have hnamed : isNamed v := by simpa [givesParts, hv] using h
      cases hk : v.isKind .name with
      | false =>
        refine ⟨false, ?_⟩
        simp [isTag, isKind_node, attr_of_get? hv, hk, bind, Except.bind, pure, Except.pure]
      | true =>
        rw [isNamed, hk, Bool.not_true, Bool.false_or] at hnamed
        obtain ⟨w, hw, -⟩ := attr_of_any "id" hnamed
        refine ⟨w.same tag, ?_⟩
        simp [isTag, isKind_node, attr_of_get? hv, hk, hw, bind, Except.bind, pure, Except.pure]
  | _ => exact ⟨false, rfl⟩

theorem isMarkedImport_ok (mark : String) (h : givesParts k as) :
    (node k as).isMarkedImport mark =
      .ok (holds ((node k as).isMarkedImport mark)) := by
  rw [holds_iff]
  cases k with
  | importFrom =>
    simp only [givesParts] at h
    split at h
    next first more hnames =>
      obtain ⟨hkind, hname⟩ := Bool.and_eq_true_iff.mp h
      obtain ⟨w, hw, -⟩ := attr_of_any "name" hname
      obtain ⟨bs, rfl⟩ : ∃ bs, first = .node .importAlias bs := by
        cases first with
        | node j bs => exact ⟨bs, by simpa [isKind_node] using hkind⟩
        | _ => cases hkind
      obtain ⟨a, ha⟩ : ∃ a, (node .importAlias bs).attr "asname" = .ok a := by
        cases hget : get? bs "asname" with
        | some a => exact ⟨a, attr_of_get? hget⟩
        | none => exact ⟨.none, by simp [attr, attr?, hget]; rfl⟩
      cases hsame : w.same (.str mark) with
      | false =>
        refine ⟨false, ?_⟩
        simp [isMarkedImport, isKind_node, attr_of_get? hnames, firstElement,
          elements, elements?, hw, hsame, bind, Except.bind, pure, Except.pure]
      | true =>
        refine ⟨a.isNone, ?_⟩
        simp [isMarkedImport, isKind_node, attr_of_get? hnames, firstElement,
          elements, elements?, hw, hsame, ha, bind, Except.bind, pure, Except.pure]
    next => cases h
  | _ => exact ⟨false, rfl⟩

theorem assignsPublicNames_ok (h : givesParts k as) :
    assignsPublicNames (.node k as) = .ok (holds (assignsPublicNames (.node k as))) := by
  rw [holds_iff]
  cases k with
  | assign =>
    simp only [givesParts] at h
    split at h
    next targets htargets =>
      match targets, h, htargets with
      | [], _, htargets =>
        refine ⟨false, ?_⟩
        simp [assignsPublicNames, isKind_node, attr_of_get? htargets, length, elements?, bind,
          Except.bind, pure, Except.pure]
      | _ :: _ :: _, _, htargets =>
        refine ⟨false, ?_⟩
        simp [assignsPublicNames, isKind_node, attr_of_get? htargets, length, elements?, bind,
          Except.bind, pure, Except.pure]
      | [target], h, htargets =>
        have hnamed : isNamed target := by simpa using h
        cases hk : target.isKind .name with
        | false =>
          refine ⟨false, ?_⟩
          simp [assignsPublicNames, isKind_node, attr_of_get? htargets, length, elements?,
            firstElement, elements, hk, bind, Except.bind, pure, Except.pure]
        | true =>
          rw [isNamed, hk, Bool.not_true, Bool.false_or] at hnamed
          obtain ⟨w, hw, -⟩ := attr_of_any "id" hnamed
          refine ⟨w.same (.str "__all__"), ?_⟩
          simp [assignsPublicNames, isKind_node, attr_of_get? htargets, length, elements?,
            firstElement, elements, hk, hw, bind, Except.bind, pure, Except.pure]
    next => cases h
  | _ => exact ⟨false, rfl⟩

theorem startsWithDocstring_ok (h : givesParts k as) :
    startsWithDocstring (.node k as) = .ok (holds (startsWithDocstring (.node k as))) := by
  rw [holds_iff]
  cases k with
  | exprStmt =>
    cases hv : get? as "value" with
    | none => simp [givesParts, hv] at h
    | some v =>
      refine ⟨v.isKind .constant || v.isKind .str, ?_⟩
      simp [startsWithDocstring, isKind_node, attr_of_get? hv, bind, Except.bind, pure, Except.pure]
  | _ => exact ⟨false, rfl⟩

end

/-! ## Kinds of statements -/

/-- Whether a statement is the place to paste at. -/
def isPlace (tag v : Value) : Bool := holds (isTag tag v)

def isImport (mark : String) (v : Value) : Bool := holds (v.isMarkedImport mark)

def isPublicNames (v : Value) : Bool := holds (assignsPublicNames v)

theorem isPlace_eq (tag v : Value) : isPlace tag v = (v.isKind .exprStmt &&
    (v.attr? "value").any fun w => w.isKind .name && (w.attr? "id").any (·.same tag)) := by
  simp only [isPlace, isTag, attr]
  cases v.isKind .exprStmt with
  | false => rfl
  | true =>
    cases v.attr? "value" with
    | none => rfl
    | some w =>
      cases hk : w.isKind .name with
      | false => simp [hk, bind, Except.bind, pure, Except.pure, holds]
      | true => cases hid : w.attr? "id" <;> simp [hk, hid, bind, Except.bind, pure, Except.pure, holds]

theorem isImport_eq (mark : String) (v : Value) : isImport mark v = (v.isKind .importFrom &&
    (v.attr? "names").any fun ns => ns.firstElement.toOption.any fun first =>
      (first.attr? "name").any (·.same (.str mark)) && (first.attr? "asname").any (·.isNone)) := by
  simp only [isImport, isMarkedImport, attr]
  cases v.isKind .importFrom with
  | false => rfl
  | true =>
    cases v.attr? "names" with
    | none => rfl
    | some ns =>
      cases hf : ns.firstElement with
      | error e => simp [hf, bind, Except.bind, holds, Except.toOption]
      | ok first =>
        cases hname : first.attr? "name" with
        | none => simp [hf, hname, bind, Except.bind, holds, Except.toOption]
        | some w =>
          cases hw : w.same (.str mark) <;> cases ha : first.attr? "asname" <;>
            simp [hf, hname, hw, ha, bind, Except.bind, pure, Except.pure, holds, Except.toOption]

/-- Whether a statement goes to the place that the template marks. -/
def isOrdinary (v : Value) : Bool :=
  !isPublicNames v && !isImport dialectsMark v && !isImport macrosMark v

def inner : Value → List Value
  | .node k as => children k as
  | _ => []

/-- A statement in which the parts that are looked at are there, and below which `p` holds
nowhere. -/
def isStatement (p : Value → Bool) (v : Value) : Bool :=
  v.isNode && givesParts (v.kind?.getD .tree) v.attrs &&
    (inner v).all (·.throughout (fun _ => true) fun k as => givesParts k as && !p (.node k as))

/-- Statements with imports that have a meaning at the top level only. -/
def isSuite (vs : List Value) : Bool :=
  vs.all fun v => isStatement (isImport dialectsMark) v && isStatement (isImport macrosMark) v

/-- Such statements, of which one marks the place to paste at; there is no such place below the top
level. -/
def isTemplate (tag : Value) (vs : List Value) : Bool :=
  isSuite vs && vs.all (isStatement (isPlace tag)) && vs.countP (isPlace tag) == 1

section

variable {tag v : Value} {test : Value → Except Error Bool}

private theorem isStatement_iff {p : Value → Bool} {k : Kind} {as : Attrs} :
    isStatement p (.node k as) ↔ givesParts k as ∧
      ∀ u ∈ children k as,
        u.throughout (fun _ => true) (fun k as => givesParts k as && !p (.node k as)) = true := by
  simp [isStatement, inner, isNode, kind?, attrs]

theorem exists_of_isStatement {p : Value → Bool} (h : isStatement p v) :
    ∃ k as, v = .node k as ∧ givesParts k as := by
  cases v with
  | node k as => exact ⟨k, as, rfl, (isStatement_iff.mp h).1⟩
  | _ => simp [isStatement, isNode] at h

/-- A pass that stops at the nodes that pass a test gives back a tree where there are none. -/
private theorem fold_of_not_holds {σ : Type}
    {onNode : Kind → Attrs → Parts (StateT σ (Except Error) Value) → StateT σ (Except Error) Value}
    {onRest : Value → List (Item (StateT σ (Except Error) Value)) →
      List (Item (StateT σ (Except Error) Value)) → StateT σ (Except Error) Value}
    (hnode : ∀ k as parts, test (.node k as) = .ok false →
      onNode k as parts = rebuild (fun _ i => i.result) k as parts)
    (hok : ∀ k as, givesParts k as → test (.node k as) = .ok (holds (test (.node k as))))
    (hn : v.isNode)
    (hnone : v.throughout (fun _ => true)
      (fun k as => givesParts k as && !holds (test (.node k as)))) :
    v.fold onNode onRest = pure v := by
  induction v using walkInduction with
  | node k as ih =>
    obtain ⟨hhere, hbelow⟩ := throughout_node.mp hnone
    obtain ⟨hparts, hno⟩ := Bool.and_eq_true_iff.mp hhere
    have htest : test (.node k as) = .ok false := by
      rw [hok k as hparts]
      simpa using hno
    rw [fold_node, hnode k as _ htest]
    refine (Giving.unchanged σ).rebuild_of_same (fun _ r => r) fun name hname u hu => ?_
    have hu := mem_children.mpr ⟨name, hname, hu⟩
    exact ih u hu (isNode_of_mem_children hu) (hbelow rfl u hu)
  | rest v hv => simp [hv] at hn

private theorem fold_statement {σ : Type}
    {onNode : Kind → Attrs → Parts (StateT σ (Except Error) Value) → StateT σ (Except Error) Value}
    {onRest : Value → List (Item (StateT σ (Except Error) Value)) →
      List (Item (StateT σ (Except Error) Value)) → StateT σ (Except Error) Value}
    (found : Value → StateT σ (Except Error) Value)
    (hnode : ∀ k as parts b, test (.node k as) = .ok b →
      onNode k as parts =
        if b then found (.node k as) else rebuild (fun _ i => i.result) k as parts)
    (hok : ∀ k as, givesParts k as → test (.node k as) = .ok (holds (test (.node k as))))
    (h : isStatement (fun u => holds (test u)) v) :
    v.fold onNode onRest = if holds (test v) then found v else pure v := by
  obtain ⟨k, as, rfl, hparts⟩ := exists_of_isStatement h
  rw [fold_node, hnode k as _ _ (hok k as hparts)]
  cases holds (test (.node k as)) with
  | true => rfl
  | false =>
    refine (Giving.unchanged σ).rebuild_of_same (fun _ r => r) fun name hname u hu => ?_
    have hu := mem_children.mpr ⟨name, hname, hu⟩
    exact fold_of_not_holds (fun k as parts hf => hnode k as parts false hf) hok
      (isNode_of_mem_children hu) ((isStatement_iff.mp h).2 u hu)

theorem extract_statement (h : isStatement (isImport mark) v) :
    extract (·.isMarkedImport mark) v =
      if isImport mark v then (do modify (· ++ [v]); return .none) else pure v := by
  refine fold_statement (fun v => do modify (· ++ [v]); return .none) (fun k as parts b hb => ?_)
    (fun k as => isMarkedImport_ok mark) h
  simp only [hb]
  cases b <;> rfl

theorem paste_statement (body : Value) (h : isStatement (isPlace tag) v) :
    paste tag body v = if isPlace tag v then nextBody body else pure v := by
  refine fold_statement (fun _ => nextBody body) (fun k as parts b hb => ?_) (fun k as => isTag_ok) h
  simp only [hb]
  cases b <;> rfl

theorem takePublicNames_statement {p : Value → Bool} (h : isStatement p v) :
    takePublicNames v =
      if isPublicNames v then (do modify (· ++ [v]); return .none) else pure v := by
  obtain ⟨k, as, rfl, hparts⟩ := exists_of_isStatement h
  obtain ⟨b, hb⟩ : ∃ b, assignsPublicNames (.node k as) = .ok b := ⟨_, assignsPublicNames_ok hparts⟩
  simp only [takePublicNames, isPublicNames, hb, holds]
  cases b <;> rfl

end

/-! ## Where statements stand does not matter -/

/-- A tree but for locations. -/
abbrev unplaced (v : Value) : Value := v.outline fun _ => true

section

variable {tag v : Value} {k : Kind} {as : Attrs}

private theorem unplaced_node (k : Kind) (as : Attrs) :
    unplaced (.node k as) = .node k (outlineAttrs (fun _ => true) k as) :=
  outline_node k as

private theorem unplaced_list (vs : List Value) : unplaced (.list vs) = .list (vs.map unplaced) :=
  outline_list vs

private theorem attr?_unplaced (hv : v.isKind j) {o : Bool} (hf : ⟨name, o⟩ ∈ j.fields) :
    (unplaced v).attr? name = (v.attr? name).map unplaced := by
  cases v with
  | node i bs =>
    obtain rfl : i = j := by simpa [isKind_node] using hv
    exact attr?_outline hf rfl
  | _ => cases hv

private theorem id_unplaced (hv : v.isKind .name) :
    (unplaced v).attr? "id" = (v.attr? "id").map unplaced :=
  attr?_unplaced hv (o := false) (by decide)

private theorem name_unplaced (hv : v.isKind .importAlias) :
    (unplaced v).attr? "name" = (v.attr? "name").map unplaced :=
  attr?_unplaced hv (o := false) (by decide)

private theorem asname_unplaced (hv : v.isKind .importAlias) :
    (unplaced v).attr? "asname" = (v.attr? "asname").map unplaced :=
  attr?_unplaced hv (o := true) (by decide)

private theorem isNamed_unplaced (v : Value) : isNamed (unplaced v) = isNamed v := by
  cases hk : v.isKind .name with
  | false => simp [isNamed, hk]
  | true =>
    simp [isNamed, hk, id_unplaced hk, Option.any_map]

private theorem givesParts_unplaced (k : Kind) (as : Attrs) :
    givesParts k (outlineAttrs (fun _ => true) k as) = givesParts k as := by
  cases k with
  | exprStmt =>
    simp only [givesParts]
    rw [get?_outlineAttrs_req (by decide) rfl]
    simp [Option.any_map, isNamed_unplaced]
  | assign =>
    simp only [givesParts]
    rw [get?_outlineAttrs_req (by decide) rfl]
    cases get? as "targets" with
    | none => rfl
    | some w =>
      cases w with
      | list xs =>
        simp only [Option.map_some, outline_list]
        cases xs with
        | nil => rfl
        | cons x xs => simp [isNamed_unplaced]
      | node j bs => simp [outline_node]
      | _ => rfl
  | importFrom =>
    simp only [givesParts]
    rw [get?_outlineAttrs_req (by decide) rfl]
    cases get? as "names" with
    | none => rfl
    | some w =>
      cases w with
      | list xs =>
        simp only [Option.map_some, outline_list]
        cases xs with
        | nil => rfl
        | cons x xs =>
          cases hk : x.isKind .importAlias with
          | false => simp [hk]
          | true =>
            simp [hk, name_unplaced hk, Option.any_map]
      | node j bs => simp [outline_node]
      | _ => rfl
  | _ => rfl

private theorem any_unplaced {p : Value → Bool} {o : Option Value} (h : o.any (·.isText)) :
    (o.map unplaced).any p = o.any p := by
  cases o with
  | none => rfl
  | some v =>
    cases v with
    | str s => rfl
    | _ => cases h

theorem isPlace_unplaced (h : givesParts k as) :
    isPlace tag (unplaced (.node k as)) = isPlace tag (.node k as) := by
  rw [isPlace_eq, isPlace_eq, isKind_outline]
  cases k with
  | exprStmt =>
    have hvalue : (unplaced (.node .exprStmt as)).attr? "value" =
        ((node .exprStmt as).attr? "value").map unplaced :=
      attr?_unplaced (j := .exprStmt) (o := false) rfl (by decide)
    rw [hvalue]
    cases hv : get? as "value" with
    | none => simp [givesParts, hv] at h
    | some w =>
      have hnamed : isNamed w := by simpa [givesParts, hv] using h
      have hw : (node .exprStmt as).attr? "value" = some w := by simp [attr?, hv]
      rw [hw, Option.map_some, Option.any_some, Option.any_some, isKind_outline]
      cases hk : w.isKind .name with
      | false => rfl
      | true =>
        rw [isNamed, hk, Bool.not_true, Bool.false_or] at hnamed
        rw [id_unplaced hk, any_unplaced hnamed]
  | _ => rfl

theorem isImport_unplaced (mark : String) (h : givesParts k as) :
    isImport mark (unplaced (.node k as)) = isImport mark (.node k as) := by
  rw [isImport_eq, isImport_eq, isKind_outline]
  cases k with
  | importFrom =>
    have hnames : (unplaced (.node .importFrom as)).attr? "names" =
        ((node .importFrom as).attr? "names").map unplaced :=
      attr?_unplaced (j := .importFrom) (o := false) rfl (by decide)
    rw [hnames]
    simp only [givesParts] at h
    split at h
    next first more hget =>
      have hw : (node .importFrom as).attr? "names" = some (.list (first :: more)) := by
        simp [attr?, hget]
      obtain ⟨hk, hname⟩ := Bool.and_eq_true_iff.mp h
      rw [hw, Option.map_some, unplaced_list]
      simp only [Option.any_some, List.map_cons, firstElement, elements,
        elements?, bind, Except.bind, pure, Except.pure, Except.toOption]
      rw [name_unplaced hk, any_unplaced hname, asname_unplaced hk]
      simp [Option.any_map]
    next => cases h
  | _ => rfl

theorem isStatement_congr {p : Value → Bool}
    (hp : ∀ k as, givesParts k as → p (unplaced (.node k as)) = p (.node k as)) {r : Value}
    (h : unplaced r = unplaced v) : isStatement p r = isStatement p v := by
  have hboth (k : Kind) (as : Attrs) :
      (givesParts k (outlineAttrs (fun _ => true) k as) &&
        !p (.node k (outlineAttrs (fun _ => true) k as))) =
      (givesParts k as && !p (.node k as)) := by
    rw [givesParts_unplaced]
    cases hk : givesParts k as with
    | false => rfl
    | true => rw [← hp k as hk, unplaced_node]
  have hbelow (v : Value) : (unplaced v).throughout (fun _ => true)
        (fun k as => givesParts k as && !p (.node k as)) =
      v.throughout (fun _ => true) (fun k as => givesParts k as && !p (.node k as)) :=
    throughout_outline (fun _ => rfl) hboth v
  have hself (v : Value) : isStatement p (unplaced v) = isStatement p v := by
    cases v with
    | node k as =>
      rw [unplaced_node]
      simp only [isStatement, inner, kind?, attrs, Option.getD_some,
        givesParts_unplaced, children_outlineAttrs fun _ _ => rfl, List.all_map,
        Function.comp_def, hbelow]
      rfl
    | list vs => rw [unplaced_list]; rfl
    | _ => rfl
  rw [← hself r, h, hself v]

end

/-! ## Taking statements out -/

/-- What is left of statements when those with `p` are taken out, unless these are all. -/
def remaining (p : Value → Bool) (vs : List Value) : List Value :=
  if vs.all p then vs else vs.filter (!p ·)

namespace Tracked

/-- The suite with the statements with `p` marked as gone. -/
def dropping (p : Value → Bool) (ts : List Tracked) : List Tracked :=
  ts.map fun t => { t with present := t.present && !p t.statement }

/-- The suite after the statements with `p` have been taken out, unless these are all. -/
def without (p : Value → Bool) (ts : List Tracked) : List Tracked :=
  if (statements ts).all p then ts else dropping p ts

theorem statements_cons (t : Tracked) (ts : List Tracked) :
    statements (t :: ts) = (if t.present then [t.statement] else []) ++ statements ts := by
  cases ht : t.present <;> simp [statements, ht]

theorem statements_ofList (vs : List Value) : statements (ofList vs) = vs := by
  induction vs with
  | nil => rfl
  | cons v vs ih => simpa [statements, ofList] using ih

theorem statements_dropping (p : Value → Bool) (ts : List Tracked) :
    statements (dropping p ts) = (statements ts).filter (!p ·) := by
  induction ts with
  | nil => rfl
  | cons t ts ih =>
    rw [dropping, List.map_cons, ← dropping, statements_cons, ih, statements_cons]
    cases t.present <;> cases hp : p t.statement <;> simp [hp]

theorem statements_without (p : Value → Bool) (ts : List Tracked) :
    statements (without p ts) = remaining p (statements ts) := by
  unfold without remaining
  split
  · rfl
  · exact statements_dropping p ts

theorem any_present (ts : List Tracked) : ts.any (·.present) = !(statements ts).isEmpty := by
  induction ts with
  | nil => rfl
  | cons t ts ih =>
    rw [List.any_cons, ih, statements_cons]
    cases t.present <;> simp

section

variable {take : Value → Extraction Value} {p : Value → Bool} {ts : List Tracked}

private def takeFrom (take : Value → Extraction Value) (t : Tracked) : Extraction Tracked := do
  if t.present then
    match ← take t.statement with
    | .none => return { t with present := false }
    | v => return { t with statement := v }
  else return t

private theorem takeFrom_eq {t : Tracked} (h : t.present → t.statement.isNode ∧
      take t.statement =
        if p t.statement then (do modify (· ++ [t.statement]); return .none) else pure t.statement)
    (taken : List Value) :
    (takeFrom take t).run taken =
      .ok ({ t with present := t.present && !p t.statement },
        taken ++ (if t.present then [t.statement] else []).filter p) := by
  obtain ⟨v, present⟩ := t
  cases present with
  | false =>
    simp only [Bool.false_eq_true, ↓reduceIte, List.filter_nil, List.append_nil, Bool.false_and]
    rfl
  | true =>
    obtain ⟨hn, htake⟩ := h rfl
    rw [takeFrom, if_pos rfl, htake]
    cases hp : p v with
    | true =>
      simp only [↓reduceIte, List.filter_cons_of_pos hp, List.filter_nil]
      rfl
    | false =>
      cases v with
      | node k as =>
        simp [hp]
        rfl
      | _ => cases hn

private theorem mapM_takeFrom
    (h : ∀ v ∈ statements ts, v.isNode ∧
      take v = if p v then (do modify (· ++ [v]); return .none) else pure v)
    (taken : List Value) :
    (ts.mapM (takeFrom take)).run taken =
      .ok (dropping p ts, taken ++ (statements ts).filter p) := by
  induction ts generalizing taken with
  | nil => simp [dropping, statements]; rfl
  | cons t ts ih =>
    have htail := ih fun v hv => h v (by simp [statements_cons, hv])
    have hhead := takeFrom_eq (fun ht => h t.statement (by simp [statements_cons, ht])) taken
    rw [statements_cons, List.filter_append, ← List.append_assoc]
    exact run_mapM_cons hhead (htail _)

theorem takeOut_eq (take : Value → Extraction Value) (p : Value → Bool) (ts : List Tracked)
    (h : ∀ v ∈ statements ts, v.isNode ∧
      take v = if p v then (do modify (· ++ [v]); return .none) else pure v) :
    takeOut take ts = .ok (without p ts, (statements ts).filter p) := by
  have hback : ((dropping p ts).zip ts).map (fun pair => { pair.1 with present := pair.2.present }) =
      ts := by
    rw [dropping, List.zip_map_left, List.map_map]
    induction ts with
    | nil => rfl
    | cons t ts ih =>
      simp only [List.zip_cons_cons, List.map_cons, ih fun v hv => h v (by simp [statements_cons, hv])]
      rfl
  have hall : (dropping p ts).any (·.present) = !(statements ts).all p := by
    rw [any_present, statements_dropping, Bool.eq_iff_iff]
    simp
  have hrun := mapM_takeFrom h []
  change ((ts.mapM (takeFrom take)).run [] >>= _) = _
  rw [hrun]
  change (if (dropping p ts).any (·.present) then _ else _) = _
  rw [hall, without]
  cases (statements ts).all p with
  | true => exact congrArg (fun us => Except.ok (us, (statements ts).filter p)) hback
  | false => rfl

end

end Tracked

/-! ## Pasting -/

/-- The statements with others in the place to paste at. -/
def filled (tag : Value) (vs pasted : List Value) : List Value :=
  vs.flatMap fun v => if isPlace tag v then pasted else [v]

section

variable {tag : Value} {vs body : List Value}

private theorem mapM_paste (body : Value)
    (h : ∀ v ∈ vs, isStatement (isPlace tag) v) (pasted : Bool)
    (hcount : vs.countP (isPlace tag) + pasted.toNat ≤ 1) :
    (vs.mapM (paste tag body)).run pasted =
      .ok (vs.map fun v => if isPlace tag v then body else v,
        pasted || vs.any (isPlace tag)) := by
  induction vs generalizing pasted with
  | nil =>
    simp only [List.mapM_nil, List.map_nil, List.any_nil, Bool.or_false]
    rfl
  | cons v vs ih =>
    have htail := ih fun u hu => h u (by simp [hu])
    have hhead := paste_statement body (h v (by simp))
    cases hv : isPlace tag v with
    | false =>
      rw [List.countP_cons_of_neg (by simp [hv])] at hcount
      have hrun : (paste tag body v).run pasted = .ok (v, pasted) := by
        rw [hhead, hv]
        rfl
      rw [List.map_cons, List.any_cons, hv, Bool.false_or]
      exact run_mapM_cons hrun (htail pasted hcount)
    | true =>
      rw [List.countP_cons_of_pos hv] at hcount
      obtain rfl : pasted = false := by
        cases pasted with
        | false => rfl
        | true => simp at hcount
      have hrun : (paste tag body v).run false = .ok (body, true) := by
        rw [hhead, hv]
        rfl
      rw [List.map_cons, List.any_cons, hv, if_pos rfl]
      exact run_mapM_cons hrun (htail true (by simpa using hcount))

private theorem suite_filled (hnode : ∀ v ∈ vs, v.isNode) (hbody : body ≠ [])
    (hplace : vs.any (isPlace tag)) :
    suite (vs.map fun v => if isPlace tag v then .list body else v) =
      .list (filled tag vs body) := by
  have hspliced : (vs.map fun v => if isPlace tag v then .list body else v).flatMap spliced =
      filled tag vs body := by
    rw [List.flatMap_map, filled]
    apply List.flatMap_congr
    intro v hv
    cases isPlace tag v with
    | true => rfl
    | false =>
      have hn := hnode v hv
      cases v with
      | node => rfl
      | _ => cases hn
  have hne : filled tag vs body ≠ [] := by
    obtain ⟨v, hv, hv'⟩ := List.any_eq_true.mp hplace
    obtain ⟨b, hb⟩ := List.exists_mem_of_ne_nil body hbody
    refine List.ne_nil_of_mem (a := b) (List.mem_flatMap.mpr ⟨v, hv, ?_⟩)
    rwa [if_pos hv']
  rw [← hspliced] at hne ⊢
  exact suite_of_ne_nil hne

theorem statements_filled (body : List Value) (h : ∀ v ∈ vs, isStatement (isPlace tag) v)
    (hcount : vs.countP (isPlace tag) = 1) :
    statements (.list body) (.list vs) tag =
      if body = [] then .error (.report .emptyBody none)
      else .ok (.list (filled tag vs body), .template) := by
  have hplace : vs.any (isPlace tag) := by
    obtain ⟨v, hv, hv'⟩ := List.countP_pos_iff.mp (by omega : 0 < vs.countP (isPlace tag))
    exact List.any_eq_true.mpr ⟨v, hv, hv'⟩
  have hvs : vs ≠ [] := by
    rintro rfl
    cases hplace
  have hnode : ∀ v ∈ vs, v.isNode := by
    intro v hv
    obtain ⟨k, as, rfl, -⟩ := exists_of_isStatement (h v hv)
    rfl
  cases body with
  | nil => rfl
  | cons b body =>
    have hrun : (paste tag (.list (b :: body)) (.list vs)).run false =
        .ok (.list (filled tag vs (b :: body)), true) := by
      have hmap := mapM_paste (.list (b :: body)) h false (by simp [hcount])
      rw [paste, fold_list, foldItems_eq]
      simp only [List.mapM_map]
      change ((vs.mapM (paste tag (.list (b :: body)))) >>= fun rs => pure (suite rs)).run
        false = _
      rw [StateT.run_bind, hmap, hplace, ← suite_filled hnode (List.cons_ne_nil b body) hplace]
      rfl
    have htruthy : (list vs).isTruthy := by simpa [isTruthy] using hvs
    rw [if_neg (List.cons_ne_nil b body), statements]
    simp only [isNode, asList, Bool.false_eq_true, ↓reduceIte, htruthy, Bool.not_true, hrun]
    simp [isTruthy, bind, Except.bind, isNone, pure, Except.pure]

end

/-! ## Whole modules -/

section

variable {tag v : Value} {vs : List Value}

private theorem isKind_of_isPlace (h : isPlace tag v) : v.isKind .exprStmt := by
  rw [isPlace_eq, Bool.and_eq_true] at h
  exact h.1

private theorem isKind_of_isImport (h : isImport mark v) : v.isKind .importFrom := by
  rw [isImport_eq, Bool.and_eq_true] at h
  exact h.1

private theorem isKind_of_isPublicNames (h : isPublicNames v) : v.isKind .assign := by
  rw [isPublicNames, assignsPublicNames] at h
  cases hk : v.isKind .assign with
  | true => rfl
  | false =>
    simp only [hk] at h
    cases h

private theorem eq_of_isKind {k : Kind} (hj : v.isKind j) (hk : v.isKind k) :
    j = k := by
  cases v with
  | node i as =>
    simp only [isKind_node, beq_iff_eq] at hj hk
    exact hj.symm.trans hk
  | _ => cases hj

theorem isImport_of_isPlace (mark : String) (h : isPlace tag v) :
    isImport mark v = false := by
  cases himport : isImport mark v with
  | false => rfl
  | true => cases eq_of_isKind (isKind_of_isPlace h) (isKind_of_isImport himport)

private theorem isImport_and_not_isPlace (mark : String) (tag v : Value) :
    (isImport mark v && !isPlace tag v) = isImport mark v := by
  cases hv : isPlace tag v with
  | false => simp
  | true => simp [isImport_of_isPlace mark hv]

theorem isPublicNames_of_isImport (h : isImport mark v) : isPublicNames v = false := by
  cases hpublic : isPublicNames v with
  | false => rfl
  | true => cases eq_of_isKind (isKind_of_isPublicNames hpublic) (isKind_of_isImport h)

theorem isImport_unique {other : String} (h : isImport mark v) (hne : mark ≠ other) :
    isImport other v = false := by
  cases hother : isImport other v with
  | false => rfl
  | true =>
    rw [isImport_eq, Bool.and_eq_true] at h hother
    obtain ⟨-, h⟩ := h
    obtain ⟨-, hother⟩ := hother
    cases hnames : v.attr? "names" with
    | none => simp [hnames] at h
    | some ns =>
      rw [hnames, Option.any_some] at h hother
      cases hfirst : ns.firstElement.toOption with
      | none => simp [hfirst] at h
      | some first =>
        rw [hfirst, Option.any_some, Bool.and_eq_true] at h hother
        cases hname : first.attr? "name" with
        | none => simp [hname] at h
        | some w =>
          rw [hname, Option.any_some] at h hother
          have hmark := eq_str_of_same h.1
          rw [eq_str_of_same hother.1] at hmark
          exact absurd (str.inj hmark).symm hne

theorem isStatement_of_isSuite (h : isSuite vs) (hv : v ∈ vs) :
    isStatement (isImport dialectsMark) v ∧ isStatement (isImport macrosMark) v := by
  have hall := List.all_eq_true.mp h v hv
  simpa using hall

private theorem dialectsMark_ne : dialectsMark ≠ macrosMark := by decide

/-! ### What is taken out -/

theorem filter_remaining {p q : Value → Bool} (h : ∀ v, q v → p v = false)
    (vs : List Value) : (remaining p vs).filter q = vs.filter q := by
  unfold remaining
  split
  · rfl
  · rw [List.filter_filter]
    apply List.filter_congr
    intro v _
    cases hq : q v with
    | false => rfl
    | true => simp [h v hq]

theorem remaining_of_mem {p : Value → Bool} (hv : v ∈ vs) (hp : p v = false) :
    remaining p vs = vs.filter (!p ·) := by
  unfold remaining
  rw [if_neg]
  intro hall
  simp [List.all_eq_true.mp hall v hv] at hp

theorem remaining_of_forall {p : Value → Bool} (h : ∀ v ∈ vs, p v) : remaining p vs = vs := by
  unfold remaining
  rw [if_pos (List.all_eq_true.mpr h)]

theorem remaining_of_none {p : Value → Bool} (h : ∀ v ∈ vs, p v = false) : remaining p vs = vs := by
  unfold remaining
  split
  · rfl
  · exact List.filter_eq_self.mpr fun v hv => by simp [h v hv]

/-- What goes to the place that the template marks. -/
def pasted (vs : List Value) : List Value :=
  remaining (isImport macrosMark) (remaining (isImport dialectsMark) (remaining isPublicNames vs))

/-- What is left where there are no ordinary statements: those that are taken out last. -/
def leftover (vs : List Value) : List Value :=
  if vs.any (isImport macrosMark) then vs.filter (isImport macrosMark)
  else if vs.any (isImport dialectsMark) then vs.filter (isImport dialectsMark)
  else vs

theorem pasted_of_ordinary (h : vs.any isOrdinary) : pasted vs = vs.filter isOrdinary := by
  obtain ⟨v, hv, hordinary⟩ := List.any_eq_true.mp h
  simp only [isOrdinary, Bool.and_eq_true, Bool.not_eq_true'] at hordinary
  obtain ⟨⟨hpublic, hdialects⟩, hmacros⟩ := hordinary
  have hv₁ : v ∈ vs.filter (!isPublicNames ·) := by simp [hv, hpublic]
  have hv₂ : v ∈ (vs.filter (!isPublicNames ·)).filter (!isImport dialectsMark ·) := by
    simp [hv, hpublic, hdialects]
  rw [pasted, remaining_of_mem hv hpublic, remaining_of_mem hv₁ hdialects,
    remaining_of_mem hv₂ hmacros, List.filter_filter, List.filter_filter]
  apply List.filter_congr
  intro u _
  simp only [isOrdinary]
  cases isPublicNames u <;> cases isImport dialectsMark u <;> cases isImport macrosMark u <;> rfl

theorem pasted_of_not_ordinary (h : vs.any isOrdinary = false) : pasted vs = leftover vs := by
  have hall : ∀ v ∈ vs, isPublicNames v = false → isImport dialectsMark v = false →
      isImport macrosMark v = true := by
    intro v hv hpublic hdialects
    have hnot := List.any_eq_false.mp h v hv
    simpa [isOrdinary, hpublic, hdialects] using hnot
  unfold leftover
  split
  next hmacros =>
    obtain ⟨m, hm, hmacro⟩ := List.any_eq_true.mp hmacros
    have hpublic := isPublicNames_of_isImport hmacro
    have hdialects := isImport_unique hmacro dialectsMark_ne.symm
    have hm₁ : m ∈ vs.filter (!isPublicNames ·) := by simp [hm, hpublic]
    rw [pasted, remaining_of_mem hm hpublic, remaining_of_mem hm₁ hdialects, List.filter_filter,
      remaining_of_forall]
    · apply List.filter_congr
      intro v hv
      cases hv' : isImport macrosMark v with
      | true => simp [isPublicNames_of_isImport hv', isImport_unique hv' dialectsMark_ne.symm]
      | false =>
        cases hp : isPublicNames v <;> cases hd : isImport dialectsMark v <;> simp
        simpa [hv'] using hall v hv hp hd
    · intro v hv
      simp only [List.mem_filter, Bool.and_eq_true, Bool.not_eq_true'] at hv
      exact hall v hv.1 hv.2.2 hv.2.1
  next hmacros =>
    have hnomacros : ∀ v ∈ vs, isImport macrosMark v = false := by simpa using hmacros
    split
    next hdialects =>
      obtain ⟨d, hd, hdialect⟩ := List.any_eq_true.mp hdialects
      have hfilter : vs.filter (!isPublicNames ·) = vs.filter (isImport dialectsMark) := by
        apply List.filter_congr
        intro v hv
        cases hv' : isImport dialectsMark v with
        | true => simp [isPublicNames_of_isImport hv']
        | false =>
          cases hp : isPublicNames v with
          | true => rfl
          | false => simpa [hnomacros v hv] using hall v hv hp hv'
      rw [pasted, remaining_of_mem hd (isPublicNames_of_isImport hdialect), hfilter,
        remaining_of_forall fun v hv => (List.mem_filter.mp hv).2,
        remaining_of_none fun v hv => hnomacros v (List.mem_filter.mp hv).1]
    next hdialects =>
      have hnodialects : ∀ v ∈ vs, isImport dialectsMark v = false := by simpa using hdialects
      have hpublic : ∀ v ∈ vs, isPublicNames v := by
        intro v hv
        cases hp : isPublicNames v with
        | true => rfl
        | false => simpa [hnomacros v hv] using hall v hv hp (hnodialects v hv)
      rw [pasted, remaining_of_forall hpublic, remaining_of_none hnodialects,
        remaining_of_none hnomacros]

theorem leftover_ne_nil (h : vs ≠ []) : leftover vs ≠ [] := by
  unfold leftover
  split
  next hmacros =>
    obtain ⟨m, hm, hmacro⟩ := List.any_eq_true.mp hmacros
    exact List.ne_nil_of_mem (List.mem_filter.mpr ⟨hm, hmacro⟩)
  next =>
    split
    next hdialects =>
      obtain ⟨d, hd, hdialect⟩ := List.any_eq_true.mp hdialects
      exact List.ne_nil_of_mem (List.mem_filter.mpr ⟨hd, hdialect⟩)
    next => exact h

/-! ### The module that comes of it -/

/-- The docstring of a module, if it has one: a constant that it starts with. -/
def docstring : List Value → List Value
  | first :: _ => if holds (startsWithDocstring first) then [first] else []
  | [] => []

def afterDocstring (body : List Value) : List Value := body.drop (docstring body).length

theorem docstring_append (body : List Value) : docstring body ++ afterDocstring body = body := by
  cases body with
  | nil => rfl
  | cons first more =>
    simp only [afterDocstring, docstring]
    cases holds (startsWithDocstring first) <;> rfl

/-- A statement of the template, with the location of another statement. -/
def atPlaceOf (reference v : Value) : Value :=
  (fixLocations (m := Except Error) .overwrite reference v).toOption.getD v

/-- The template but for its imports, around what is pasted. -/
def framed (tag : Value) (page pasted : List Value) : List Value :=
  filled tag (page.filter fun v => !isImport dialectsMark v && !isImport macrosMark v) pasted

/-- A module: the docstring, imports of dialects, the list of public names, imports of macros, and
the template around what is pasted. Imports of the template come before those of the body. -/
def arranged (tag : Value) (body page pasted : List Value) : List Value :=
  docstring body ++
    page.filter (isImport dialectsMark) ++ (afterDocstring body).filter (isImport dialectsMark) ++
    (afterDocstring body).filter isPublicNames ++
    page.filter (isImport macrosMark) ++ (afterDocstring body).filter (isImport macrosMark) ++
    framed tag page pasted

theorem fixLocations_atPlaceOf (reference : Value) (hv : v.isNode) :
    fixLocations .overwrite reference v = (.ok (atPlaceOf reference v) : Except Error Value) ∧
      unplaced (atPlaceOf reference v) = unplaced v := by
  obtain ⟨r, hr, -, hout⟩ := outline_fixLocations (fun _ => true) .overwrite reference (.inl hv)
  have hat : atPlaceOf reference v = r := by simp [atPlaceOf, hr, Except.toOption]
  rw [hat]
  exact ⟨hr, hout⟩

theorem isTemplate_atPlaceOf (reference : Value) (h : isTemplate tag vs) :
    isTemplate tag (vs.map (atPlaceOf reference)) := by
  simp only [isTemplate, isSuite, Bool.and_eq_true, List.all_eq_true, beq_iff_eq] at h ⊢
  obtain ⟨⟨hsuite, hplaces⟩, hcount⟩ := h
  have hsame : ∀ v ∈ vs, unplaced (atPlaceOf reference v) = unplaced v := by
    intro v hv
    obtain ⟨k, as, rfl, -⟩ := exists_of_isStatement (hplaces v hv)
    exact (fixLocations_atPlaceOf reference rfl).2
  have himport (mark : String) (v : Value) (hv : v ∈ vs) :
      isStatement (isImport mark) (atPlaceOf reference v) = isStatement (isImport mark) v :=
    isStatement_congr (fun _ _ => isImport_unplaced mark) (hsame v hv)
  have hplace (v : Value) (hv : v ∈ vs) :
      isStatement (isPlace tag) (atPlaceOf reference v) = isStatement (isPlace tag) v :=
    isStatement_congr (fun _ _ => isPlace_unplaced) (hsame v hv)
  refine ⟨⟨?_, ?_⟩, ?_⟩
  · intro r hr
    obtain ⟨v, hv, rfl⟩ := List.mem_map.mp hr
    rw [himport dialectsMark v hv, himport macrosMark v hv]
    exact hsuite v hv
  · intro r hr
    obtain ⟨v, hv, rfl⟩ := List.mem_map.mp hr
    rw [hplace v hv]
    exact hplaces v hv
  · rw [List.countP_map, ← hcount]
    apply List.countP_congr
    intro v hv
    obtain ⟨k, as, rfl, hparts⟩ := exists_of_isStatement (hplaces v hv)
    obtain ⟨j, bs, hr, hparts'⟩ := exists_of_isStatement ((hplace _ hv).trans (hplaces _ hv))
    rw [Function.comp_apply, hr, ← isPlace_unplaced hparts', ← hr, hsame _ hv, isPlace_unplaced hparts]

private theorem perm_filled (tag : Value) (ps vs : List Value) :
    (filled tag vs ps).Perm
      ((List.replicate (vs.countP (isPlace tag)) ps).flatten ++ vs.filter (!isPlace tag ·)) := by
  induction vs with
  | nil => simp [filled]
  | cons u vs ih =>
    rw [filled, List.flatMap_cons, ← filled]
    cases hu : isPlace tag u with
    | true => simpa [hu, List.replicate_succ] using ih.append_left ps
    | false => simpa [hu] using (ih.cons u).trans List.perm_middle.symm

private theorem coe_filter_split (p : Value → Bool) (vs : List Value) :
    (vs : Multiset Value) = (vs.filter p : Multiset Value) + (vs.filter (!p ·) : Multiset Value) := by
  rw [Multiset.coe_add, Multiset.coe_eq_coe]
  exact (List.filter_append_perm p vs).symm

private theorem coe_filter_filter {p q r s : Value → Bool} (hp : ∀ v, (q v && p v) = r v)
    (hq : ∀ v, (!q v && p v) = s v) (vs : List Value) :
    (vs.filter p : Multiset Value) = (vs.filter r : Multiset Value) + (vs.filter s : Multiset Value) := by
  rw [coe_filter_split q (vs.filter p), List.filter_filter, List.filter_filter, funext hp, funext hq]

/-- Each statement is an import of dialects, a list of public names, an import of macros or
ordinary. -/
private theorem coe_sorted (vs : List Value) : (vs : Multiset Value) =
    (vs.filter (isImport dialectsMark) : Multiset Value) + ((vs.filter isPublicNames : Multiset Value) +
      ((vs.filter (isImport macrosMark) : Multiset Value) + (vs.filter isOrdinary : Multiset Value))) := by
  have hmacros := coe_filter_filter (p := fun v => !isPublicNames v && !isImport dialectsMark v)
    (q := isImport macrosMark) (r := isImport macrosMark) (s := isOrdinary) (fun v => ?_) (fun v => ?_) vs
  have hpublic := coe_filter_filter (p := (!isImport dialectsMark ·)) (q := isPublicNames)
    (r := isPublicNames) (s := fun v => !isPublicNames v && !isImport dialectsMark v) (fun v => ?_)
    (fun v => rfl) vs
  · rw [coe_filter_split (isImport dialectsMark) vs, hpublic, hmacros]
  · cases hv : isPublicNames v with
    | false => rfl
    | true =>
      cases hd : isImport dialectsMark v with
      | false => rfl
      | true => simp [isPublicNames_of_isImport hd] at hv
  · cases hv : isImport macrosMark v with
    | false => rfl
    | true => simp [isPublicNames_of_isImport hv, isImport_unique hv dialectsMark_ne.symm]
  · simp only [isOrdinary]
    cases isPublicNames v <;> cases isImport dialectsMark v <;> cases isImport macrosMark v <;> rfl

private theorem countP_page (hcount : page.countP (isPlace tag) = 1) :
    (page.filter fun v => !isImport dialectsMark v && !isImport macrosMark v).countP
      (isPlace tag) = 1 := by
  rw [List.countP_filter, ← hcount]
  apply List.countP_congr
  intro u _
  cases hu : isPlace tag u with
  | false => simp
  | true => simp [isImport_of_isPlace _ hu]

/-- What the module is made of: the body but for its ordinary statements, the template but for its
place to paste at, and what is pasted. -/
theorem perm_arranged (body : List Value) (ps : List Value)
    (hcount : page.countP (isPlace tag) = 1) :
    (arranged tag body page ps ++ (afterDocstring body).filter isOrdinary).Perm
      (body ++ page.filter (!isPlace tag ·) ++ ps) := by
  have hbody : (body : Multiset Value) = (docstring body : Multiset Value) +
      (afterDocstring body : Multiset Value) := by
    rw [Multiset.coe_add, docstring_append]
  have hfilled := Multiset.coe_eq_coe.mpr (perm_filled tag ps
    (page.filter fun v => !isImport dialectsMark v && !isImport macrosMark v))
  rw [countP_page hcount, List.replicate_one, List.flatten_singleton, ← Multiset.coe_add] at hfilled
  have hother : (page.filter (!isPlace tag ·) : Multiset Value) =
      (page.filter (isImport dialectsMark) : Multiset Value) +
        ((page.filter (isImport macrosMark) : Multiset Value) +
        (((page.filter fun v => !isImport dialectsMark v && !isImport macrosMark v).filter
          (!isPlace tag ·) : List Value) : Multiset Value)) := by
    have hdialects := coe_filter_filter (p := (!isPlace tag ·)) (q := isImport dialectsMark)
      (s := fun v => !isImport dialectsMark v && !isPlace tag v)
      (fun v => isImport_and_not_isPlace dialectsMark tag v) (fun v => rfl) page
    have hmacros := coe_filter_filter (p := fun v => !isImport dialectsMark v && !isPlace tag v)
      (q := isImport macrosMark) (r := isImport macrosMark)
      (s := fun v => !isPlace tag v && (!isImport dialectsMark v && !isImport macrosMark v))
      (fun v => ?_) (fun v => ?_) page
    · rw [hdialects, hmacros, List.filter_filter]
    · cases hv : isImport macrosMark v with
      | false => rfl
      | true =>
        have hplace := isImport_and_not_isPlace macrosMark tag v
        simpa [hv, isImport_unique hv dialectsMark_ne.symm] using hplace
    · cases isPlace tag v <;> cases isImport dialectsMark v <;> cases isImport macrosMark v <;> rfl
  rw [← Multiset.coe_eq_coe]
  simp only [arranged, framed, ← Multiset.coe_add]
  rw [hfilled, hbody, hother, coe_sorted (afterDocstring body)]
  abel

theorem not_isImport_of_mem_framed {ps : List Value} (hps : ∀ v ∈ ps, isOrdinary v)
    (hv : v ∈ framed tag page ps) :
    isImport dialectsMark v = false ∧ isImport macrosMark v = false := by
  simp only [framed, filled, List.mem_flatMap, List.mem_filter, Bool.and_eq_true, Bool.not_eq_true'] at hv
  obtain ⟨u, ⟨-, hu⟩, hv⟩ := hv
  split at hv
  · have hordinary := hps v hv
    simp only [isOrdinary, Bool.and_eq_true, Bool.not_eq_true'] at hordinary
    exact ⟨hordinary.1.2, hordinary.2⟩
  · rw [List.mem_singleton] at hv
    rwa [hv]

end

section

open Tracked (takeOut takeOut_eq without ofList statements_ofList statements_without)

variable {tag first : Value} {more template : List Value}

private theorem takeOut_import (mark : String) (ts : List Tracked)
    (h : ∀ v ∈ Tracked.statements ts, isStatement (isImport mark) v) :
    takeOut (extract (·.isMarkedImport mark)) ts =
      .ok (without (isImport mark) ts, (Tracked.statements ts).filter (isImport mark)) := by
  apply takeOut_eq
  intro v hv
  obtain ⟨k, as, rfl, -⟩ := exists_of_isStatement (h v hv)
  exact ⟨rfl, extract_statement (h _ hv)⟩

private theorem mem_of_mem_remaining {p : Value → Bool} (h : v ∈ remaining p vs) : v ∈ vs := by
  unfold remaining at h
  split at h
  · exact h
  · exact (List.mem_filter.mp h).1

private theorem takeOut_publicNames (h : isSuite vs) :
    takeOut takePublicNames (ofList vs) =
      .ok (without isPublicNames (ofList vs), vs.filter isPublicNames) := by
  have hout := takeOut_eq takePublicNames isPublicNames (ofList vs)
    fun v hv => ?_
  · rwa [statements_ofList] at hout
  · rw [statements_ofList] at hv
    have hv' := (isStatement_of_isSuite h hv).1
    obtain ⟨k, as, rfl, -⟩ := exists_of_isStatement hv'
    exact ⟨rfl, takePublicNames_statement hv'⟩

private theorem takeOut_imports (ts : List Tracked) (hts : ∀ v ∈ Tracked.statements ts, v ∈ vs)
    (h : isSuite vs) :
    takeOut (extract (·.isMarkedImport dialectsMark)) ts =
        .ok (without (isImport dialectsMark) ts,
          (Tracked.statements ts).filter (isImport dialectsMark)) ∧
      takeOut (extract (·.isMarkedImport macrosMark))
          (without (isImport dialectsMark) ts) =
        .ok (without (isImport macrosMark) (without (isImport dialectsMark) ts),
          (Tracked.statements ts).filter (isImport macrosMark)) := by
  have hmacros := takeOut_import macrosMark (without (isImport dialectsMark) ts) fun v hv => ?_
  · rw [statements_without, filter_remaining fun v hv => isImport_unique hv dialectsMark_ne.symm]
      at hmacros
    exact ⟨takeOut_import _ _ fun v hv => (isStatement_of_isSuite h (hts v hv)).1, hmacros⟩
  · rw [statements_without] at hv
    exact (isStatement_of_isSuite h (hts v (mem_of_mem_remaining hv))).2

private theorem statements_page (hcount : page.countP (isPlace tag) = 1) :
    Tracked.statements (without (isImport macrosMark)
        (without (isImport dialectsMark) (ofList page))) =
      page.filter fun v => !isImport dialectsMark v && !isImport macrosMark v := by
  have hpos : 0 < page.countP (isPlace tag) := by omega
  obtain ⟨v, hv, hplace⟩ := List.countP_pos_iff.mp hpos
  have hdialects := isImport_of_isPlace dialectsMark hplace
  have hmacros := isImport_of_isPlace macrosMark hplace
  have hv' : v ∈ page.filter (!isImport dialectsMark ·) := by simp [hv, hdialects]
  rw [statements_without, statements_without, statements_ofList,
    remaining_of_mem hv hdialects, remaining_of_mem hv' hmacros, List.filter_filter]
  apply List.filter_congr
  intro u _
  exact Bool.and_comm _ _

theorem dialect_eq (hbody : isSuite (first :: more))
    (htemplate : isTemplate tag template) :
    (dialect (.list (first :: more)) (.list template) tag).map (·.result) =
      if pasted (afterDocstring (first :: more)) = [] then .error (.report .emptyBody none)
      else .ok (.list (arranged tag (first :: more) (template.map (atPlaceOf first))
        (pasted (afterDocstring (first :: more))))) := by
  have hpage := isTemplate_atPlaceOf first htemplate
  set page := template.map (atPlaceOf first)
  have hplaces : isSuite page ∧ (∀ v ∈ page, isStatement (isPlace tag) v) ∧
      page.countP (isPlace tag) = 1 := by
    simpa [isTemplate, and_assoc] using hpage
  obtain ⟨hsuitePage, hplaces, hcount⟩ := hplaces
  have hlocated : template.mapM (fixLocations .overwrite first) =
      (.ok page : Except Error (List Value)) := by
    apply except_mapM_of_ok
    intro v hv
    have hv' : isStatement (isPlace tag) v := by
      simp only [isTemplate, Bool.and_eq_true, List.all_eq_true] at htemplate
      exact htemplate.1.2 v hv
    obtain ⟨k, as, rfl, -⟩ := exists_of_isStatement hv'
    exact (fixLocations_atPlaceOf first rfl).1
  have hdocstring : startsWithDocstring first = .ok (holds (startsWithDocstring first)) := by
    have hfirst := (isStatement_of_isSuite hbody List.mem_cons_self).1
    obtain ⟨k, as, rfl, hparts⟩ := exists_of_isStatement hfirst
    exact startsWithDocstring_ok hparts
  have hne : template.isEmpty = false := by
    cases template with
    | nil => simp [isTemplate] at htemplate
    | cons => rfl
  have hsplit : (if holds (startsWithDocstring first)
      then ((first :: more).take 1, (first :: more).drop 1) else ([], first :: more)) =
      (docstring (first :: more), afterDocstring (first :: more)) := by
    simp only [docstring, afterDocstring]
    cases holds (startsWithDocstring first) <;> rfl
  have hsuite : isSuite (afterDocstring (first :: more)) := by
    simp only [isSuite, List.all_eq_true] at hbody ⊢
    intro v hv
    exact hbody v (List.mem_of_mem_drop hv)
  set rest := afterDocstring (first :: more)
  have hpublic := takeOut_publicNames hsuite
  have hbodyImports := takeOut_imports (without isPublicNames (ofList rest))
    (fun v hv => ?_) hsuite
  have hpageImports := takeOut_imports (ofList page) (fun v hv => ?_) hsuitePage
  · rw [statements_without, statements_ofList,
      filter_remaining fun v => isPublicNames_of_isImport,
      filter_remaining fun v => isPublicNames_of_isImport] at hbodyImports
    rw [statements_ofList] at hpageImports
    have hpasted : Tracked.statements (without (isImport macrosMark) (without
        (isImport dialectsMark) (without isPublicNames (ofList rest)))) = pasted rest := by
      rw [statements_without, statements_without, statements_without,
        statements_ofList, pasted]
    have hfinal := statements_filled (pasted rest)
      (fun v hv => hplaces v (List.mem_filter.mp hv).1) (countP_page hcount)
    generalize holds (startsWithDocstring first) = starts at hdocstring hsplit
    unfold dialect
    simp only [isNode, asList, isTruthy, firstElement, elements,
      elements?, hlocated, hdocstring, hne, hsplit, hpublic, hbodyImports, hpageImports, hpasted,
      statements_page hcount, hfinal, bind, Except.bind, pure, Except.pure, Bool.false_eq_true,
      if_false, List.isEmpty_cons, Bool.not_false, Bool.not_true]
    by_cases hnone : pasted rest = []
    · rw [if_pos hnone, if_pos hnone]
      rfl
    · rw [if_neg hnone, if_neg hnone]
      rfl
  · rwa [statements_ofList] at hv
  · rw [statements_without, statements_ofList] at hv
    exact mem_of_mem_remaining hv

/-- Splicing conserves a module that has an ordinary statement after its docstring. Where there is
none, the statements that are taken out last are also pasted, and if there is nothing but a docstring,
there is nothing to paste. -/
theorem dialect_conserves (hbody : isSuite (first :: more) = true)
    (htemplate : isTemplate tag template = true) :
    let body := first :: more
    let rest := afterDocstring body
    let page := template.map (atPlaceOf first)
    let outcome := (dialect (.list body) (.list template) tag).map (·.result)
    page.map unplaced = template.map unplaced ∧
    (rest.any isOrdinary = true →
      outcome = .ok (.list (arranged tag body page (rest.filter isOrdinary))) ∧
      (arranged tag body page (rest.filter isOrdinary)).Perm (body ++ page.filter (!isPlace tag ·)) ∧
      ∀ v ∈ framed tag page (rest.filter isOrdinary),
        isImport dialectsMark v = false ∧ isImport macrosMark v = false) ∧
    (rest ≠ [] → rest.any isOrdinary = false →
      outcome = .ok (.list (arranged tag body page (leftover rest))) ∧ leftover rest ≠ [] ∧
      (arranged tag body page (leftover rest)).Perm
        (body ++ page.filter (!isPlace tag ·) ++ leftover rest)) ∧
    (rest = [] → outcome = .error (.report .emptyBody none)) := by
  intro body rest page outcome
  have hpage := isTemplate_atPlaceOf first htemplate
  have hcount : page.countP (isPlace tag) = 1 := by
    simp only [isTemplate, Bool.and_eq_true, beq_iff_eq] at hpage
    exact hpage.2
  have heq : outcome = if pasted rest = [] then .error (.report .emptyBody none)
      else .ok (.list (arranged tag body page (pasted rest))) := dialect_eq hbody htemplate
  have hsame : page.map unplaced = template.map unplaced := by
    rw [List.map_map]
    apply List.map_congr_left
    intro v hv
    have hv' : isStatement (isPlace tag) v = true := by
      simp only [isTemplate, Bool.and_eq_true, List.all_eq_true] at htemplate
      exact htemplate.1.2 v hv
    obtain ⟨k, as, rfl, -⟩ := exists_of_isStatement hv'
    exact (fixLocations_atPlaceOf first rfl).2
  refine ⟨hsame, fun hordinary => ?_, fun hne hnone => ?_, fun hnil => ?_⟩
  · have hne : rest.filter isOrdinary ≠ [] := by
      obtain ⟨v, hv, hv'⟩ := List.any_eq_true.mp hordinary
      exact List.ne_nil_of_mem (List.mem_filter.mpr ⟨hv, hv'⟩)
    rw [pasted_of_ordinary hordinary, if_neg hne] at heq
    have hperm := perm_arranged body (rest.filter isOrdinary) hcount
    have hframed : ∀ v ∈ framed tag page (rest.filter isOrdinary), _ := fun v hv =>
      not_isImport_of_mem_framed (fun u hu => (List.mem_filter.mp hu).2) hv
    exact ⟨heq, (List.perm_append_right_iff _).mp hperm, hframed⟩
  · have hleft := leftover_ne_nil hne
    rw [pasted_of_not_ordinary hnone, if_neg hleft] at heq
    have hperm := perm_arranged body (leftover rest) hcount
    have hempty : rest.filter isOrdinary = [] := by simpa using hnone
    rw [hempty, List.append_nil] at hperm
    exact ⟨heq, hleft, hperm⟩
  · rw [hnil] at heq
    exact heq

end

def bareName (id : String) : Value :=
  .node .exprStmt [("value", .node .name [("id", .str id), ("ctx", .node .load [])])]

private def markedImport (mark name : String) : Value :=
  .node .importFrom [("module", .str "m"), ("level", .int 0), ("names", .list
    [.node .importAlias [("name", .str mark), ("asname", .none)],
      .node .importAlias [("name", .str name), ("asname", .none)]])]

private def docstringOf (text : String) : Value :=
  .node .exprStmt [("value", .node .constant [("value", .str text), ("kind", .none)])]

/-- A module with a docstring, an import of macros and another statement, spliced into a template
that has an import of dialects, and a statement after the place to paste at. -/
theorem dialect_conserves_mixed :
    let body := [docstringOf "text", markedImport "macros" "f", bareName "x"]
    let template := [markedImport "dialects" "D", bareName "here", bareName "y"]
    let tag := Value.str "here"
    isSuite body = true ∧ isTemplate tag template = true ∧
      (afterDocstring body).any isOrdinary = true ∧
      (dialect (.list body) (.list template) tag).map (·.result) =
        .ok (.list [docstringOf "text", markedImport "dialects" "D", markedImport "macros" "f",
          bareName "x", bareName "y"]) := by
  intro body template tag
  have hbody : isSuite body = true := by decide +kernel
  have htemplate : isTemplate tag template = true := by decide +kernel
  have hordinary : (afterDocstring body).any isOrdinary = true := by decide +kernel
  have hconserves := dialect_conserves hbody htemplate
  have harranged : arranged tag body (template.map (atPlaceOf (docstringOf "text")))
      ((afterDocstring body).filter isOrdinary) = [docstringOf "text", markedImport "dialects" "D",
        markedImport "macros" "f", bareName "x", bareName "y"] := by cbv
  refine ⟨hbody, htemplate, hordinary, (hconserves.2.1 hordinary).1.trans ?_⟩
  rw [← harranged]

/-- A body that holds nothing but an import of macros has this import twice afterwards, and one that
is only a docstring cannot be spliced. -/
theorem dialect_without_ordinary :
    (dialect (.list [markedImport "macros" "f"]) (.list [bareName "here"]) (.str "here")).map
        (·.result) = .ok (.list [markedImport "macros" "f", markedImport "macros" "f"]) ∧
      (dialect (.list [docstringOf "text"]) (.list [bareName "here"]) (.str "here")).map
        (·.result) = .error (.report .emptyBody none) :=
  ⟨by cbv, by cbv⟩

end Splice

end TreeMacros
