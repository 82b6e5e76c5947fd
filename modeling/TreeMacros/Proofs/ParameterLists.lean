import TreeMacros.Proofs.Writing

/-!
# Parameter lists

A parameter list names the positional-only parameters, a slash, the ordinary parameters, a star, the
keyword-only parameters and what collects the other keywords, each item after a comma. This module
says how the printed text compares with that. The two agree for nodes that have no positional-only
parameters to name, not even an empty list of them. Any other list is printed with two slashes.
-/

namespace TreeMacros.Source

open Subject (parameter)

variable {k : Kind} {name : String} {v : Value} {n : Nat}

/-- Items that are written after others; the first of all has no comma before it. -/
def continued (first : Bool) (items : List String) : String :=
  if first then ", ".intercalate items else String.join (items.map (", " ++ ·))

@[simp] theorem continued_nil (first : Bool) : continued first [] = "" := by
  cases first <;> rfl

@[simp] theorem continued_singleton (first : Bool) (item : String) :
    continued first [item] = (if first then "" else ", ") ++ item := by
  cases first <;> simp [continued]

theorem continued_false_cons (item : String) (items : List String) :
    continued false (item :: items) = ", " ++ ", ".intercalate (item :: items) := by
  induction items generalizing item with
  | nil => simp [continued]
  | cons next items ih =>
    have hrest := ih next
    simp only [continued, Bool.false_eq_true, ↓reduceIte, List.map_cons, String.join_cons] at hrest ⊢
    rw [hrest, String.intercalate_cons_cons]
    simp only [String.append_assoc]

theorem intercalate_append_continued (items more : List String) :
    ", ".intercalate items ++ continued items.isEmpty more = ", ".intercalate (items ++ more) := by
  cases items with
  | nil => simp [continued]
  | cons item items =>
    cases more with
    | nil => simp [continued]
    | cons next more =>
      rw [String.intercalate_append_of_ne_nil (by simp) (by simp), List.isEmpty_cons,
        continued_false_cons, String.append_assoc]

theorem isEmpty_append {α : Type} (xs ys : List α) :
    (xs ++ ys).isEmpty = (xs.isEmpty && ys.isEmpty) := by
  cases xs <;> rfl

theorem length_continued_false (items : List String) :
    (continued false items).length = (items.map fun item => 2 + item.length).sum := by
  simp only [continued, Bool.false_eq_true, ↓reduceIte]
  induction items with
  | nil => rfl
  | cons item items ih =>
    rw [List.map_cons, String.join_cons, String.length_append, ih, String.length_append]
    rfl

theorem length_intercalate {items : List String} (h : items ≠ []) :
    2 + (", ".intercalate items).length = (items.map fun item => 2 + item.length).sum := by
  obtain ⟨item, items, rfl⟩ := List.exists_cons_of_ne_nil h
  rw [← length_continued_false, continued_false_cons, String.length_append]
  rfl

theorem length_intercalate_slash (items more : List String) :
    (", ".intercalate (items ++ "/" :: more)).length ≤ 3 + (", ".intercalate (items ++ more)).length := by
  by_cases h : items ++ more = []
  · obtain ⟨rfl, rfl⟩ := List.append_eq_nil_iff.mp h
    decide
  · have hne : items ++ "/" :: more ≠ [] := by simp
    have hslash := length_intercalate hne
    have hplain := length_intercalate h
    have hone : "/".length = 1 := rfl
    simp only [List.map_append, List.map_cons, List.sum_append, List.sum_cons, hone] at hslash hplain
    omega

/-- The parameters of a function. -/
structure Signature where
  /-- The positional-only parameters, if the node has a place for them. -/
  only? : Option (List Value)
  ordinary : List Value
  /-- The defaults of positional parameters. They belong to the last ones. -/
  defaults : List Value
  rest? : Option Value
  keywordOnly : List Value
  keywordDefaults : List (Option Value)
  keywords? : Option Value

namespace Signature

variable (g : Signature)

def only : List Value := g.only?.getD []

def positional : List Value := g.only ++ g.ordinary

/-- How many positional parameters have no default. -/
def required : Nat := g.positional.length - g.defaults.length

def default? (i : Nat) : Option Value :=
  if i < g.required then none else g.defaults[i - g.required]?

/-- The positional parameters with their defaults: the missing defaults are put before the others. -/
def pairs : List (Value × Option Value) :=
  g.positional.zip (List.replicate g.required none ++ g.defaults.map some)

/-- All that is printed as it stands. -/
def children : List Value :=
  g.positional ++ g.defaults ++ g.rest?.toList ++ g.keywordOnly ++ g.keywordDefaults.reduceOption ++
    g.keywords?.toList

/-- The parameters are those of a node. -/
structure Fits (as : Attrs) : Prop where
  only : Attrs.get? as "posonlyargs" = g.only?.map .list
  ordinary : Attrs.get? as "args" = some (.list g.ordinary)
  defaults : Attrs.get? as "defaults" = some (.list g.defaults)
  rest : (Attrs.get? as "vararg").getD .none = g.rest?.getD .none
  keywordOnly : Attrs.get? as "kwonlyargs" = some (.list g.keywordOnly)
  keywordDefaults : Attrs.get? as "kw_defaults" = some (.list (g.keywordDefaults.map (·.getD .none)))
  keywords : (Attrs.get? as "kwarg").getD .none = g.keywords?.getD .none

/-- There are no more defaults than parameters, and each part is what it should be. -/
structure Sound : Prop where
  defaults_le : g.defaults.length ≤ g.positional.length
  keywordDefaults_eq : g.keywordDefaults.length = g.keywordOnly.length
  defaults : ∀ d ∈ g.defaults, d.isNode = true
  keywordDefaults : ∀ d ∈ g.keywordDefaults.reduceOption, d.isNode = true
  rest : ∀ v ∈ g.rest?, v.isKind .arg = true
  keywords : ∀ v ∈ g.keywords?, v.isKind .arg = true

variable (text : Value → String)

def item (p : Value) (d? : Option Value) : String :=
  match d? with
  | some d => text p ++ "=" ++ text d
  | none => text p

/-- The positional parameters, each with its own default. -/
def positionalItems : List String := g.positional.mapIdx fun i p => item text p (g.default? i)

def onlyItems : List String := (g.positionalItems text).take g.only.length

def ordinaryItems : List String := (g.positionalItems text).drop g.only.length

/-- The star, with the name of what collects the other positional arguments. -/
def starItems : List String :=
  match g.rest? with
  | some v => ["*" ++ text v]
  | none => if g.keywordOnly.isEmpty then [] else ["*"]

/-- The keyword-only parameters, each with its own default. -/
def keywordItems : List String :=
  g.keywordOnly.mapIdx fun i p => item text p (g.keywordDefaults[i]?).join

def doubleStarItems : List String := g.keywords?.toList.map ("**" ++ text ·)

/-- What comes after the positional parameters. -/
def otherItems : List String := g.starItems text ++ g.keywordItems text ++ g.doubleStarItems text

/-- The parameter list: the slash ends the positional-only parameters, if there are any. -/
def written : String :=
  ", ".intercalate (g.onlyItems text ++ (if g.only.isEmpty then [] else ["/"]) ++
    g.ordinaryItems text ++ g.otherItems text)

end Signature

/-! ## How the text is put together -/

theorem ok_bind {α β : Type} (a : α) (f : α → Except Error β) : (Except.ok a >>= f) = f a := rfl

def itemOf (v : Value) : PrintItem := ⟨v, print false v⟩

variable {as : Attrs} {indent : Nat} {text : Value → String}

theorem part?_of_get? (h : Attrs.get? as name = some v) :
    (subject k as).part? name = some (printPart v) := by
  have hlookup : (subject k as).parts.lookup name = (Attrs.get? as name).map printPart :=
    Value.lookup_foldAttrs _ _ as name
  rw [Subject.part?, hlookup, h]
  rfl

theorem part_of_get? (h : Attrs.get? as name = some v) :
    (subject k as).part name = .ok (printPart v) := by
  rw [Subject.part, part?_of_get? h]

theorem part_optional (hdefault : k.default? name) :
    (subject k as).part name = .ok (printPart ((Attrs.get? as name).getD .none)) := by
  cases h : Attrs.get? as name with
  | some v => exact part_of_get? h
  | none =>
    have hlookup : (subject k as).parts.lookup name = (Attrs.get? as name).map printPart :=
      Value.lookup_foldAttrs _ _ as name
    rw [Subject.part, Subject.part?, hlookup, h, Option.map_none, kind_subject, if_pos hdefault,
      Option.getD_none, printPart_none]

theorem parameter_run {p : Value} {d? : Option Value} (hp : print false p .plain indent = .ok (text p))
    (hd : ∀ d ∈ d?, d.isNode ∧ print false d .plain indent = .ok (text d)) :
    parameter (itemOf p) (d?.map itemOf) indent = .ok (Signature.item text p d?) := by
  have hname : (itemOf p).print .plain indent = .ok (text p) := hp
  rw [parameter, hname]
  cases d? with
  | none => rfl
  | some d =>
    obtain ⟨hnode, hprint⟩ := hd d rfl
    have hdefault : (itemOf d).print .plain indent = .ok (text d) := hprint
    have htruthy : d.isTruthy := by
      cases d with
      | node => rfl
      | _ => cases hnode
    have hvalue : (itemOf d).value.isTruthy := htruthy
    simp only [Option.map_some, hvalue, ↓reduceIte, hdefault]
    rfl

theorem parameter_keyword_run {p : Value} {d? : Option Value}
    (hp : print false p .plain indent = .ok (text p))
    (hd : ∀ d ∈ d?, d.isNode ∧ print false d .plain indent = .ok (text d)) :
    parameter (itemOf p) (some (itemOf (d?.getD .none))) indent =
      .ok (Signature.item text p d?) := by
  cases d? with
  | none =>
    have hname : (itemOf p).print .plain indent = .ok (text p) := hp
    rw [parameter, hname]
    rfl
  | some d => exact parameter_run hp hd

theorem parameters_run {α : Type} {xs : List α} {f : α → PrintItem × Option PrintItem} {t : α → String}
    (h : ∀ x ∈ xs, parameter (f x).1 (f x).2 indent = .ok (t x)) (first : Bool) :
    Subject.parameters first (xs.map f) indent =
      .ok (first && xs.isEmpty, continued first (xs.map t)) := by
  have htexts : (xs.map f).mapM (fun p => parameter p.1 p.2 indent) = .ok (xs.map t) := by
    rw [List.mapM_map]
    exact except_mapM_of_ok h
  rw [Subject.parameters, htexts]
  cases first with
  | true => cases xs <;> rfl
  | false => rfl

theorem isTruthy_printPart (hv : v.isKind .arg) : (printPart v).isTruthy := by
  cases v with
  | node => rfl
  | _ => cases hv

theorem print_rest (hv : v.isKind .arg)
    (hprint : print false v .plain indent = .ok (text v)) :
    print false v .rest indent = .ok (text v) := by
  cases v with
  | node k bs =>
    obtain rfl : k = .arg := by simpa [Value.isKind, Value.kind?] using hv
    exact hprint
  | _ => cases hv

theorem print_restKeywords (hv : v.isKind .arg)
    (hprint : print false v .plain indent = .ok (text v)) :
    print false v .restKeywords indent = .ok ("**" ++ text v) := by
  cases v with
  | node k bs =>
    obtain rfl : k = .arg := by simpa [Value.isKind, Value.kind?] using hv
    have hplain : (do return (← write (← (subject .arg bs).part "arg").value) ++
        (← Subject.annotation (subject .arg bs) indent) : Printed) = .ok (text (.node .arg bs)) := hprint
    have hkeywords : print false (.node .arg bs) .restKeywords indent =
        (do return (← join "**" (← (subject .arg bs).part "arg").value) ++
          (← Subject.annotation (subject .arg bs) indent) : Printed) := rfl
    rw [hkeywords]
    cases hpart : (subject .arg bs).part "arg" with
    | error e =>
      rw [hpart] at hplain
      cases hplain
    | ok p =>
      rw [hpart] at hplain
      change (do return (← write p.value) ++ (← Subject.annotation (subject .arg bs) indent) : Printed) = _
        at hplain
      change (do return (← join "**" p.value) ++ (← Subject.annotation (subject .arg bs) indent) : Printed) = _
      cases hvalue : p.value with
      | str name =>
        rw [hvalue] at hplain
        cases htag : Subject.annotation (subject .arg bs) indent with
        | error e =>
          rw [htag] at hplain
          cases hplain
        | ok t =>
          rw [htag] at hplain
          have htext : name ++ t = text (.node .arg bs) := Except.ok.inj hplain
          rw [← htext, ← String.append_assoc]
          rfl
      | _ =>
        rw [hvalue] at hplain
        cases hplain
  | _ => cases hv

/-! ## The printed list -/

namespace Signature

variable {g : Signature}

theorem positionalItems_eq (h : g.defaults.length ≤ g.positional.length) (text : Value → String) :
    g.positionalItems text = g.pairs.map fun p => item text p.1 p.2 := by
  apply List.ext_getElem?
  intro i
  rw [positionalItems, pairs, List.getElem?_mapIdx, List.getElem?_map, List.zip_eq_zipWith,
    List.getElem?_zipWith]
  cases hp : g.positional[i]? with
  | none => rfl
  | some p =>
    have hi : i < g.positional.length := (List.getElem?_eq_some_iff.mp hp).1
    have haligned : (List.replicate g.required none ++ g.defaults.map some)[i]? =
        some (g.default? i) := by
      unfold default?
      by_cases hrequired : i < g.required
      · simp [List.getElem?_append, hrequired]
      · have hdefault : i - g.required < g.defaults.length := by
          unfold required at hrequired ⊢
          omega
        simp [List.getElem?_append, hrequired, List.getElem?_eq_getElem hdefault]
    rw [haligned]
    rfl

theorem keywordItems_eq (h : g.keywordDefaults.length = g.keywordOnly.length) (text : Value → String) :
    g.keywordItems text = (g.keywordOnly.zip g.keywordDefaults).map fun p => item text p.1 p.2 := by
  apply List.ext_getElem?
  intro i
  rw [keywordItems, List.getElem?_mapIdx, List.getElem?_map, List.zip_eq_zipWith,
    List.getElem?_zipWith]
  cases hp : g.keywordOnly[i]? with
  | none => rfl
  | some p =>
    have hi : i < g.keywordDefaults.length := by
      rw [h]
      exact (List.getElem?_eq_some_iff.mp hp).1
    rw [List.getElem?_eq_getElem hi]
    rfl

theorem length_written_le (g : Signature) (text : Value → String) :
    (g.written text).length ≤
      3 + (", ".intercalate (g.positionalItems text ++ g.otherItems text)).length := by
  have hgroups : g.onlyItems text ++ (g.ordinaryItems text ++ g.otherItems text) =
      g.positionalItems text ++ g.otherItems text := by
    rw [← List.append_assoc, onlyItems, ordinaryItems, List.take_append_drop]
  rw [written, List.append_assoc, List.append_assoc]
  cases g.only.isEmpty with
  | true =>
    rw [if_pos rfl, List.nil_append, hgroups]
    exact Nat.le_add_left _ _
  | false =>
    rw [← hgroups]
    exact length_intercalate_slash _ _

theorem isEmpty_positionalItems (text : Value → String) :
    (g.positionalItems text).isEmpty = g.positional.isEmpty := by
  cases h : g.positional <;> simp [positionalItems, h]

theorem zip_alignDefaults (hn : n = g.positional.length) :
    (g.positional.map itemOf).zip (Subject.alignDefaults n (g.defaults.map itemOf)) =
      g.pairs.map (Prod.map itemOf (Option.map itemOf)) := by
  rw [Subject.alignDefaults, pairs, ← List.zip_map, List.length_map, List.map_append,
    List.map_replicate, List.map_map, List.map_map, hn]
  rfl

theorem zip_take_alignDefaults (hn : n = g.positional.length) :
    (g.only.map itemOf).zip ((Subject.alignDefaults n (g.defaults.map itemOf)).take g.only.length) =
      (g.pairs.take g.only.length).map (Prod.map itemOf (Option.map itemOf)) := by
  have honly : (g.positional.map itemOf).take g.only.length = g.only.map itemOf := by
    simp [positional]
  rw [List.map_take, ← zip_alignDefaults hn, List.zip_eq_zipWith, List.zip_eq_zipWith,
    List.take_zipWith, honly]

theorem zip_drop_alignDefaults (hn : n = g.positional.length) :
    (g.ordinary.map itemOf).zip ((Subject.alignDefaults n (g.defaults.map itemOf)).drop g.only.length) =
      (g.pairs.drop g.only.length).map (Prod.map itemOf (Option.map itemOf)) := by
  have hordinary : (g.positional.map itemOf).drop g.only.length = g.ordinary.map itemOf := by
    simp [positional]
  rw [List.map_drop, ← zip_alignDefaults hn, List.zip_eq_zipWith, List.zip_eq_zipWith,
    List.drop_zipWith, hordinary]

section

variable (hfits : g.Fits as) (hsound : g.Sound)
  (htext : ∀ v ∈ g.children, print false v .plain indent = .ok (text v))

include hfits hsound htext

theorem star_run (first : Bool) : (subject .arguments as).star first indent =
    .ok (first && (g.starItems text).isEmpty, continued first (g.starItems text)) := by
  have hrest : (subject .arguments as).part "vararg" = .ok (printPart (g.rest?.getD .none)) := by
    rw [part_optional (by decide), hfits.rest]
  have hkeyword := part_of_get? (k := .arguments) hfits.keywordOnly
  rw [Subject.star, hrest, hkeyword, ok_bind, ok_bind]
  cases hr : g.rest? with
  | some v =>
    have hprint : (printPart v).print .rest indent = .ok (text v) :=
      print_rest (hsound.rest v hr) (htext v (by simp [children, hr]))
    have htruthy : (printPart v).isTruthy := isTruthy_printPart (hsound.rest v hr)
    rw [Option.getD_some, if_pos htruthy, hprint, ok_bind]
    cases first <;> simp [starItems, hr] <;> rfl
  | none =>
    cases hk : g.keywordOnly with
    | nil =>
      simp [starItems, hr, hk]
      rfl
    | cons p ps => cases first <;> simp [starItems, hr, hk] <;> rfl

theorem keywordOnly_run (first : Bool) : (subject .arguments as).keywordOnly first indent =
    .ok (first && (g.keywordItems text).isEmpty, continued first (g.keywordItems text)) := by
  have hkeyword := part_of_get? (k := .arguments) hfits.keywordOnly
  have hdefaults := part_of_get? (k := .arguments) hfits.keywordDefaults
  rw [Subject.keywordOnly, hkeyword, hdefaults, ok_bind, ok_bind]
  cases hk : g.keywordOnly with
  | nil =>
    simp [keywordItems, hk]
    rfl
  | cons p ps =>
    rw [← hk]
    have htruthy : (printPart (.list g.keywordOnly)).isTruthy := by
      rw [hk]
      rfl
    have hpairs : (g.keywordOnly.map fun v => (⟨v, print false v⟩ : PrintItem)).zip
        (((g.keywordDefaults.map (·.getD .none)).map fun v => (⟨v, print false v⟩ : PrintItem)).map some) =
        (g.keywordOnly.zip g.keywordDefaults).map
          fun p => (itemOf p.1, some (itemOf (p.2.getD .none))) := by
      rw [List.map_map, List.map_map, List.zip_map]
      rfl
    rw [if_pos htruthy, elements_printPart, elements_printPart, ok_bind, ok_bind, hpairs,
      keywordItems_eq hsound.keywordDefaults_eq, List.isEmpty_map]
    apply parameters_run
    rintro ⟨q, d?⟩ hmem
    obtain ⟨hq, hd⟩ := List.of_mem_zip hmem
    apply parameter_keyword_run
    · exact htext q (by simp [children, hq])
    · rintro d ⟨⟩
      have hdefault : d ∈ g.keywordDefaults.reduceOption := List.reduceOption_mem_iff.mpr hd
      exact ⟨hsound.keywordDefaults d hdefault, htext d (by simp [children, hdefault])⟩

theorem doubleStar_run (first : Bool) : (subject .arguments as).doubleStar first indent =
    .ok (continued first (g.doubleStarItems text)) := by
  have hrest : (subject .arguments as).part "kwarg" = .ok (printPart (g.keywords?.getD .none)) := by
    rw [part_optional (by decide), hfits.keywords]
  rw [Subject.doubleStar, hrest, ok_bind]
  cases hk : g.keywords? with
  | none =>
    simp [doubleStarItems, hk]
    rfl
  | some v =>
    have hprint : (printPart v).print .restKeywords indent = .ok ("**" ++ text v) :=
      print_restKeywords (hsound.keywords v hk) (htext v (by simp [children, hk]))
    have htruthy : (printPart v).isTruthy := isTruthy_printPart (hsound.keywords v hk)
    rw [Option.getD_some, if_pos htruthy, hprint]
    simp [doubleStarItems, hk]

omit hfits in
theorem positional_pairs_run {ps : List (Value × Option Value)} (first : Bool)
    (hps : ∀ p ∈ ps, p ∈ g.pairs) :
    Subject.parameters first (ps.map (Prod.map itemOf (Option.map itemOf))) indent =
      .ok (first && ps.isEmpty, continued first (ps.map fun p => item text p.1 p.2)) := by
  apply parameters_run
  rintro ⟨p, d?⟩ hmem
  obtain ⟨hp, hd⟩ := List.of_mem_zip (hps _ hmem)
  apply parameter_run
  · exact htext p (by simp [children, hp])
  · rintro d ⟨⟩
    have hdefault : d ∈ g.defaults := by simpa using hd
    exact ⟨hsound.defaults d hdefault, htext d (by simp [children, hdefault])⟩

/-- The mark is written after both groups of positional parameters, or after none. -/
theorem positionals_run : (subject .arguments as).positionals indent =
    .ok (g.positional.isEmpty, g.only?.elim (", ".intercalate (g.positionalItems text)) fun _ =>
      ", ".intercalate (g.onlyItems text) ++ ", /" ++
        continued (g.onlyItems text).isEmpty (g.ordinaryItems text) ++ ", /") := by
  have hargs := part_of_get? (k := .arguments) hfits.ordinary
  have hdefaults := part_of_get? (k := .arguments) hfits.defaults
  have helements (xs : List Value) : (printPart (.list xs)).elements = .ok (xs.map itemOf) :=
    elements_printPart xs
  have hitems := positionalItems_eq hsound.defaults_le text
  have hpairs : g.pairs.isEmpty = g.positional.isEmpty := by
    rw [← isEmpty_positionalItems text, hitems, List.isEmpty_map]
  cases honly : g.only? with
  | none =>
    have hpart : (subject .arguments as).part? "posonlyargs" = none := by
      have hlookup : (subject .arguments as).parts.lookup "posonlyargs" =
          (Attrs.get? as "posonlyargs").map printPart := Value.lookup_foldAttrs _ _ as _
      rw [Subject.part?, hlookup, hfits.only, honly]
      rfl
    have hpositional : g.positional = g.ordinary := by simp [positional, only, honly]
    rw [Subject.positionals, hargs, hdefaults, hpart]
    simp only [ok_bind, length_printPart, value_printPart, helements]
    change Subject.parameters true ((g.ordinary.map itemOf).zip
      (Subject.alignDefaults (g.ordinary.length + 0) (g.defaults.map itemOf))) indent = _
    rw [← hpositional, zip_alignDefaults (Nat.add_zero _),
      positional_pairs_run hsound htext true fun p hp => hp, hpairs, ← hitems]
    rfl
  | some only =>
    have hpart : (subject .arguments as).part? "posonlyargs" = some (printPart (.list g.only)) := by
      apply part?_of_get?
      rw [hfits.only, honly, Signature.only, honly]
      rfl
    have hcount : g.ordinary.length + g.only.length = g.positional.length := by
      rw [positional, List.length_append, Nat.add_comm]
    have honlyItems : (g.pairs.take g.only.length).map (fun p => item text p.1 p.2) =
        g.onlyItems text := by
      rw [onlyItems, hitems, List.map_take]
    have hordinaryItems : (g.pairs.drop g.only.length).map (fun p => item text p.1 p.2) =
        g.ordinaryItems text := by
      rw [ordinaryItems, hitems, List.map_drop]
    rw [Subject.positionals, hargs, hdefaults, hpart]
    simp only [ok_bind, length_printPart, value_printPart, helements]
    rw [zip_take_alignDefaults hcount, zip_drop_alignDefaults hcount,
      positional_pairs_run hsound htext true fun p hp => List.mem_of_mem_take hp, ok_bind]
    dsimp only
    rw [positional_pairs_run hsound htext _ fun p hp => List.mem_of_mem_drop hp, ok_bind, honlyItems,
      hordinaryItems, ← hpairs, ← honlyItems, List.isEmpty_map]
    have hsplit : ((g.pairs.take g.only.length).isEmpty && (g.pairs.drop g.only.length).isEmpty) =
        g.pairs.isEmpty := by
      rw [← isEmpty_append, List.take_append_drop]
    rw [Bool.true_and, hsplit]
    rfl

/-- The parameters after the positional ones follow on the items before them. -/
theorem print_run {positional : String}
    (h : (subject .arguments as).positionals indent = .ok (g.positional.isEmpty, positional)) :
    ∃ others, print false (.node .arguments as) .plain indent = .ok (positional ++ others) ∧
      ", ".intercalate (g.positionalItems text) ++ others =
        ", ".intercalate (g.positionalItems text ++ g.otherItems text) := by
  have hprint : print false (.node .arguments as) .plain indent =
      (subject .arguments as).parameterList indent := rfl
  rw [← isEmpty_positionalItems text] at h
  refine ⟨continued (g.positionalItems text).isEmpty (g.starItems text) ++
    (continued (g.positionalItems text ++ g.starItems text).isEmpty (g.keywordItems text) ++
      continued (g.positionalItems text ++ g.starItems text ++ g.keywordItems text).isEmpty
        (g.doubleStarItems text)), ?_, ?_⟩
  · rw [hprint, Subject.parameterList, h, ok_bind]
    dsimp only
    rw [star_run hfits hsound htext, ok_bind]
    dsimp only
    rw [keywordOnly_run hfits hsound htext, ok_bind]
    dsimp only
    rw [doubleStar_run hfits hsound htext, ok_bind]
    simp only [isEmpty_append, String.append_assoc]
    rfl
  · rw [otherItems, ← String.append_assoc, ← String.append_assoc, intercalate_append_continued,
      intercalate_append_continued, intercalate_append_continued, List.append_assoc, List.append_assoc,
      List.append_assoc]

end

/-- A parameter list is printed as it should be if the node has no place for positional-only
parameters. If it has one, whether or not there are such parameters, the text is that of the other
items with a slash after each of the two groups of positional parameters, and it is never what it
should be. Each default stands by its own parameter in any case. -/
theorem print_parameterList (g : Signature) (as : Attrs) (indent : Nat) (text : Value → String)
    (hfits : g.Fits as) (hsound : g.Sound)
    (htext : ∀ v ∈ g.children, print false v .plain indent = .ok (text v)) :
    (g.only? = none → print false (.node .arguments as) .plain indent = .ok (g.written text)) ∧
      (g.only? ≠ none → ∃ only ordinary others,
        print false (.node .arguments as) .plain indent =
          .ok (only ++ ", /" ++ ordinary ++ ", /" ++ others) ∧
        only = ", ".intercalate (g.onlyItems text) ∧
        only ++ ordinary = ", ".intercalate (g.positionalItems text) ∧
        only ++ ordinary ++ others = ", ".intercalate (g.positionalItems text ++ g.otherItems text) ∧
        only ++ ", /" ++ ordinary ++ ", /" ++ others ≠ g.written text) := by
  have hrun := positionals_run hfits hsound htext
  have hgroups : g.onlyItems text ++ g.ordinaryItems text = g.positionalItems text :=
    List.take_append_drop _ _
  constructor
  · intro honly
    rw [honly, Option.elim_none] at hrun
    obtain ⟨others, hprint, hothers⟩ := print_run hfits hsound htext hrun
    have hempty : g.only.isEmpty = true := by rw [only, honly]; rfl
    rw [hprint, hothers, written, hempty, if_pos rfl, List.append_nil, hgroups]
  · intro honly
    obtain ⟨ps, hps⟩ := Option.ne_none_iff_exists'.mp honly
    rw [hps, Option.elim_some] at hrun
    obtain ⟨others, hprint, hothers⟩ := print_run hfits hsound htext hrun
    have hordinary := intercalate_append_continued (g.onlyItems text) (g.ordinaryItems text)
    rw [hgroups] at hordinary
    refine ⟨_, _, others, hprint, rfl, hordinary, ?_, ?_⟩
    · rw [hordinary, hothers]
    · -- The text has two slashes and their commas more than the items, and the list at most one.
      intro heq
      have hlength := congrArg String.length heq
      have hmark : ", /".length = 3 := rfl
      have hitems : (", ".intercalate (g.onlyItems text)).length +
          (continued (g.onlyItems text).isEmpty (g.ordinaryItems text)).length + others.length =
          (", ".intercalate (g.positionalItems text ++ g.otherItems text)).length := by
        rw [← hothers, ← hordinary, String.length_append, String.length_append]
      have hwritten := g.length_written_le text
      simp only [String.length_append, hmark] at hlength
      omega

def named (name : String) : Value := .node .arg [("arg", .str name), ("annotation", .none)]

/-- The parameters of `def f(a, b=c, *rest, d, e=c, **others)`. -/
def mixed : Signature where
  only? := none
  ordinary := [named "a", named "b"]
  defaults := [.node .name [("id", .str "c")]]
  rest? := some (named "rest")
  keywordOnly := [named "d", named "e"]
  keywordDefaults := [none, some (.node .name [("id", .str "c")])]
  keywords? := some (named "others")

def mixedNode : Attrs :=
  [("args", .list mixed.ordinary), ("defaults", .list mixed.defaults), ("vararg", named "rest"),
    ("kwonlyargs", .list mixed.keywordOnly),
    ("kw_defaults", .list (mixed.keywordDefaults.map (·.getD .none))), ("kwarg", named "others")]

theorem print_parameterList_mixed :
    mixed.Fits mixedNode ∧ mixed.Sound ∧
      (∀ v ∈ mixed.children, print false v .plain 0 = .ok (Source.written v)) ∧
      print false (.node .arguments mixedNode) .plain 0 = .ok (mixed.written Source.written) := by
  have hfits : mixed.Fits mixedNode := ⟨rfl, rfl, rfl, rfl, rfl, rfl, rfl⟩
  have hsound : mixed.Sound := ⟨by decide, rfl, by decide, by decide, by decide, by decide⟩
  have htext : ∀ v ∈ mixed.children, print false v .plain 0 = .ok (Source.written v) := by
    intro v hv
    have hcases : v ∈ [named "a", named "b", .node .name [("id", .str "c")], named "rest", named "d",
      named "e", .node .name [("id", .str "c")], named "others"] := hv
    fin_cases hcases <;> rfl
  exact ⟨hfits, hsound, htext,
    (print_parameterList mixed mixedNode 0 Source.written hfits hsound htext).1 rfl⟩

/-- The list of a single parameter is printed with a comma before it and with two slashes. -/
theorem print_single_parameter :
    print false (.node .arguments [("posonlyargs", .list []), ("args", .list [named "a"]),
      ("vararg", .none), ("kwonlyargs", .list []), ("kw_defaults", .list []), ("kwarg", .none),
      ("defaults", .list [])]) .plain 0 = .ok ", /a, /" := by
  rfl

end Signature

end TreeMacros.Source
