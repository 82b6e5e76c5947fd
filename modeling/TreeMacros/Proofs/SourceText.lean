import TreeMacros.Proofs.Legibility

/-!
# Source text determines expressions

The source text of an expression determines the expression, apart from contexts and locations: the
text is read again, and what is read is the expression.
-/

namespace TreeMacros

open Value hiding none set
open Attrs (field items)

variable {v : Value}

namespace Source

open Reader

section

variable {as : Attrs}

/-! ## Names and constants -/

theorem exists_of_isIdentifierValue (h : v.isIdentifier) :
    ∃ w, v = .str w ∧ isIdentifier w := by
  cases v with
  | str w => exact ⟨w, rfl, h⟩
  | _ => cases h

theorem firm_of_isIdentifier {w : String} (h : isIdentifier w) : Firm w.toList := by
  obtain ⟨c, cs, hcs, -, hall, -⟩ := exists_of_isIdentifier h
  exact firm_of_forall (by simp [hcs]) fun d hd => isBlank_of_isWordChar (hall d hd)

theorem isExpression_name (h : Ready .name as) : IsExpression (.node .name as) := by
  obtain ⟨w, hw, hidentifier⟩ := exists_of_isIdentifierValue
    (show (field as "id").isIdentifier from (Bool.and_eq_true_iff.mp h.writable).2)
  have hprint (i : Nat) : print false (.node .name as) .plain i = .ok w := by
    refine except_bind_of_ok (h.part_eq "id" (by decide)) ?_
    rw [hw]
    rfl
  have hview : (node .name as).view = .node .name [("id", .str w)] := by
    have hid : (field as "id").view = .str w := by
      rw [hw]
      rfl
    rw [← hid]
    exact view_node h.conforms
  refine isExpression_of hprint (firm_of_isIdentifier hidentifier) fun n hn => spells_atom ?_
  intro rest hrest
  rw [hview]
  exact atom_name hidentifier hrest

theorem isBlank_of_isNumeral {cs : List Char} (h : isNumeral cs) :
    ∀ c ∈ cs, Text.isBlank c = false := by
  induction cs with
  | nil => simp
  | cons c cs ih =>
    obtain ⟨hc, hcs⟩ := Bool.and_eq_true_iff.mp h
    intro d hd
    rcases List.mem_cons.mp hd with rfl | hd
    · simp only [isNumberChar, Bool.or_eq_true, Bool.and_eq_true, beq_iff_eq] at hc
      rcases hc with (hdigit | hmem) | ⟨rfl, -⟩
      · exact isBlank_of_isWordChar (by simp [isWordChar, Char.isAlphanum, hdigit])
      · have hall : ∀ d ∈ ['e', '+', '-', 'j'], Text.isBlank d = false :=
          List.all_iff_forall_prop.mp rfl
        exact hall d (by simpa using hmem)
      · rfl
    · exact ih hcs d hd

theorem isBlank_of_isQuote {q : Char} (h : isQuote q) : Text.isBlank q = false := by
  rcases isQuote_iff.mp h with rfl | rfl <;> rfl

theorem firm_quoted (s : String) : Firm (Text.quoted s).toList := by
  obtain ⟨q, cs, hcs, hq⟩ := exists_quoted s
  rw [hcs]
  exact firm_enclosed (isBlank_of_isQuote hq) (isBlank_of_isQuote hq) cs

theorem firm_quotedBytes (bs : List UInt8) : Firm (Text.quotedBytes bs).toList := by
  generalize hq : Text.quoteFor (fun c => bs.any (·.toNat == c.toNat)) = q
  have hblank : Text.isBlank q = false := by
    rw [← hq]
    exact isBlank_of_isQuote (isQuote_quoteFor _)
  have htext : (Text.quotedBytes bs).toList =
      'b' :: (q :: bs.flatMap (fun b => (Text.escapeByte q b).toList) ++ [q]) := by
    simp [Text.quotedBytes, hq, List.flatMap_map]
  rw [htext]
  exact firm_enclosed rfl hblank _

theorem firm_of_isNumber (h : isNumber v) : Firm (literal v).toList := by
  obtain ⟨d, ds, htext, -, hnumeral, -⟩ := exists_literal_of_isNumber h
  rw [htext]
  exact firm_of_forall (by simp) (isBlank_of_isNumeral hnumeral)

theorem view_constant (h : Ready .constant as) : (node .constant as).view =
    constant (field as "value").view (field as "kind").view :=
  view_node h.conforms

theorem isExpression_literal (h : Ready .constant as) (hv : field as "value" = v)
    (hkind : field as "kind" = .none) (hview : v.view = v) (hfirm : Firm (literal v).toList)
    (hread : ∀ (e : Reader Value) rest, Border rest →
      atom e ((literal v).toList ++ rest) = some (constant v .none, rest)) :
    IsExpression (.node .constant as) := by
  have hprint (i : Nat) : print false (.node .constant as) .plain i = .ok (literal v) := by
    have hpart := part?_of_conforms h.conforms (show "kind" ∈ Kind.constant.fieldNames by decide)
    rw [hkind] at hpart
    simp only [print_node, Subject.plain, Subject.expression?, kind_subject, hpart,
      h.part_eq "value" (by decide), bind, Except.bind, value_printPart, hv]
    rfl
  refine isExpression_of hprint hfirm fun n hn => spells_atom fun rest hrest => ?_
  rw [view_constant h, hv, hview, hkind]
  exact hread _ rest hrest

theorem isExpression_unicode (h : Ready .constant as) {s : String}
    (hv : field as "value" = .str s) (hkind : field as "kind" = .str "u") :
    IsExpression (.node .constant as) := by
  have hprint (i : Nat) : print false (.node .constant as) .plain i = .ok ("u" ++ Text.quoted s) := by
    have hpart := part?_of_conforms h.conforms (show "kind" ∈ Kind.constant.fieldNames by decide)
    rw [hkind] at hpart
    simp only [print_node, Subject.plain, Subject.expression?, kind_subject, hpart,
      h.part_eq "value" (by decide), bind, Except.bind, value_printPart, hv]
    rfl
  have htext : ("u" ++ Text.quoted s).toList = ['u'] ++ (Text.quoted s).toList := by simp
  refine isExpression_of hprint ?_ fun n hn => spells_atom fun rest hrest => ?_
  · rw [htext]
    exact (firm_of_forall (by simp) (List.all_iff_forall_prop.mp rfl)).append (firm_quoted s).2
  · rw [htext, view_constant h, hv, hkind]
    exact atom_unicode s rest

theorem isExpression_constant (h : Ready .constant as) : IsExpression (.node .constant as) := by
  have hwritable : (field as "value").isConstant (field as "kind") :=
    (Bool.and_eq_true_iff.mp h.writable).2
  cases hkind : field as "kind" with
  | none =>
    rw [hkind] at hwritable
    cases hv : field as "value" with
    | none =>
      exact isExpression_literal h hv hkind rfl (firm_of_forall (by decide) (List.all_iff_forall_prop.mp rfl))
        fun e rest hrest => atom_word (w := "None") (by decide) hrest
    | bool b =>
      cases b with
      | false =>
        exact isExpression_literal h hv hkind rfl (firm_of_forall (by decide) (List.all_iff_forall_prop.mp rfl))
          fun e rest hrest => atom_word (w := "False") (by decide) hrest
      | true =>
        exact isExpression_literal h hv hkind rfl (firm_of_forall (by decide) (List.all_iff_forall_prop.mp rfl))
          fun e rest hrest => atom_word (w := "True") (by decide) hrest
    | str s =>
      exact isExpression_literal h hv hkind rfl (firm_quoted s) fun e rest _ => atom_str s rest
    | bytes bs =>
      exact isExpression_literal h hv hkind rfl (firm_quotedBytes bs)
        fun e rest _ => atom_bytes bs rest
    | ellipsis =>
      exact isExpression_literal h hv hkind rfl (firm_of_forall (by decide) (List.all_iff_forall_prop.mp rfl))
        fun e rest _ => atom_ellipsis e rest
    | int | float | complex =>
      rw [hv] at hwritable
      exact isExpression_literal h hv hkind rfl (firm_of_isNumber hwritable)
        fun e rest hrest => atom_number hwritable hrest
    | _ =>
      rw [hv] at hwritable
      cases hwritable
  | str u =>
    cases hv : field as "value" with
    | str s =>
      rw [hkind, hv] at hwritable
      have hu : u = "u" := eq_of_beq hwritable
      exact isExpression_unicode h hv (hu ▸ hkind)
    | _ =>
      rw [hkind, hv] at hwritable
      cases hwritable
  | _ =>
    rw [hkind] at hwritable
    revert hwritable
    cases field as "value" <;> exact fun h => nomatch h

/-! ## Attributes, subscripts and calls -/

theorem isExpression_append {x : Value} {s : String} (hx : IsExpression x)
    (hsize : sizeOf x < sizeOf v) (more : List Char) (f : Value → Value)
    (hprint : ∀ i, print false v .plain i = .ok s) (htext : s.toList = (written x).toList ++ more)
    (hlast : ∃ c ∈ more.getLast?, Text.isBlank c = false) (hview : v.view = f x.view)
    (hread : ∀ n, sizeOf v ≤ n → ∀ rest, Border rest →
      Border (more ++ rest) ∧ suffix (expr n) (more ++ rest) = some (f, rest)) :
    IsExpression v := by
  refine isExpression_of hprint (htext ▸ hx.firm.append hlast) fun n hn => ?_
  rw [htext, hview]
  refine (hx.spells n (by omega)).append ?_ (hread n hn)
  rintro rfl
  obtain ⟨c, hc, -⟩ := hlast
  cases hc

theorem getLast?_isBlank_of_isIdentifier {w : String} (h : isIdentifier w)
    (before : List Char) : ∃ c ∈ (before ++ w.toList).getLast?, Text.isBlank c = false := by
  obtain ⟨-, c, hc, hblank⟩ := firm_of_isIdentifier h
  refine ⟨c, ?_, hblank⟩
  rw [List.getLast?_append, hc]
  rfl

theorem exists_needsBlank (hexpr : v.isOf .expr)
    (hwf : v.throughout (fun _ => true) Kind.conforms) :
    ∃ b, Subject.needsBlank v = .ok b := by
  obtain ⟨k, bs, rfl, hk⟩ := exists_of_isOf hexpr
  cases hconstant : k.isConstant with
  | false =>
    refine ⟨false, ?_⟩
    rw [Subject.needsBlank, hconstant]
    rfl
  | true =>
    have hkind : k = .constant := by
      revert hk hconstant
      cases k <;> decide
    subst hkind
    obtain ⟨w, hw, -⟩ := Kind.exists_of_conforms (throughout_node.mp hwf).1
      "value" .literal (by decide)
    have hattr : (node .constant bs).attr "value" = .ok w := by
      simp [attr, attr?, hw]
    simp only [Subject.needsBlank, hconstant, hattr, bind, Except.bind, ↓reduceIte]
    cases w <;> exact ⟨_, rfl⟩

theorem isExpression_attributeRef (h : Ready .attributeRef as) :
    IsExpression (.node .attributeRef as) := by
  obtain ⟨hvalue, hsize⟩ := h.expression "value" (by decide) (by decide)
  obtain ⟨w, hw, hidentifier⟩ := exists_of_isIdentifierValue
    (show (field as "attr").isIdentifier from (Bool.and_eq_true_iff.mp h.writable).2)
  obtain ⟨hexpr, hmem⟩ := h.one (c := .expr) "value" (by decide)
  obtain ⟨b, hb⟩ := exists_needsBlank hexpr ((throughout_node.mp h.wellFormed).2 rfl _
    (mem_children.mpr ⟨"value", by decide, hmem⟩))
  have hprint (i : Nat) : print false (.node .attributeRef as) .plain i =
      .ok (written (field as "value") ++ (if b then " " else "") ++ "." ++ w) := by
    change (do
      let value ← (subject .attributeRef as).part "value"
      let text ← value.print .plain i
      let blank := if ← Subject.needsBlank value.value then " " else ""
      return text ++ blank ++ "." ++ (← write (← (subject .attributeRef as).part "attr").value)) = _
    rw [h.part_eq "value" (by decide), h.part_eq "attr" (by decide), hw]
    simp only [bind, Except.bind, print_printPart, value_printPart, hb, hvalue.printed i]
    rfl
  have hview : (node .attributeRef as).view = .node .attributeRef
      [("value", (field as "value").view), ("attr", .str w)] := by
    have hattr : (field as "attr").view = .str w := by
      rw [hw]
      rfl
    rw [← hattr]
    exact view_node h.conforms
  refine isExpression_append hvalue hsize ((if b then [' ', '.'] else ['.']) ++ w.toList)
    (fun x => .node .attributeRef [("value", x), ("attr", .str w)]) hprint (by cases b <;> simp)
    (getLast?_isBlank_of_isIdentifier hidentifier _) hview fun n hn rest hrest => ?_
  obtain ⟨c, cs, hcs, hdigit, -, -⟩ := exists_of_isIdentifier hidentifier
  obtain ⟨hdot, hblank⟩ := suffix_attribute (n := n) hidentifier hrest
  rw [List.append_assoc]
  cases b with
  | false =>
    refine ⟨border_cons (by decide) fun _ => ?_, hdot⟩
    simp [hcs, hdigit]
  | true => exact ⟨border_cons (by decide) (by simp), hblank⟩

theorem isExpression_subscript (h : Ready .subscript as) : IsExpression (.node .subscript as) := by
  obtain ⟨hvalue, hsizeV⟩ := h.expression "value" (by decide) (by decide)
  obtain ⟨hof, hmem⟩ := h.one (c := .slice) "slice" (by decide)
  obtain ⟨hlegible, hsizeS⟩ := h.child (by decide) hmem
  have hslice := hlegible.slice hof
  have hprint (i : Nat) : print false (.node .subscript as) .plain i =
      .ok (written (field as "value") ++ "[" ++ written (field as "slice") ++ "]") := by
    refine except_bind_of_ok (h.child_eq "value" (by decide) hvalue.printed i) ?_
    exact except_bind_of_ok (h.child_eq "slice" (by decide) hslice.printed i) rfl
  refine isExpression_append hvalue hsizeV
    ('[' :: ((written (field as "slice")).toList ++ [']']))
    (fun x => .node .subscript [("value", x), ("slice", (field as "slice").view)]) hprint
    (by simp) (firm_enclosed rfl rfl _).2 (view_node h.conforms) fun n hn rest hrest => ?_
  rw [List.cons_append, List.append_assoc]
  exact ⟨border_cons (by decide) (by simp), hslice.reads n (by omega) rest⟩

/-- Positional and keyword arguments as they are written. -/
def argumentsOf (xs ys : List Value) : List (List Char × (Value ⊕ Value)) :=
  (xs.map fun x => ((written x).toList, .inl x.view)) ++
    ys.map fun y => ((written y).toList, .inr y.view)

theorem isExpression_call (h : Ready .call as) : IsExpression (.node .call as) := by
  obtain ⟨hfunc, hsize⟩ := h.expression "func" (by decide) (by decide)
  obtain ⟨xs, hxs, hargs⟩ := h.elements "args" (by decide)
  obtain ⟨ys, hys, hmany⟩ := h.many (c := .keyword) "keywords" (by decide)
  have hkeywords : ∀ y ∈ ys,
      IsPart (fun n text x => ShowsPart (argument (expr n)) ')' text (.inr x)) y ∧
        sizeOf y < sizeOf (node .call as) := by
    intro y hy
    obtain ⟨hof, hmem⟩ := hmany y hy
    obtain ⟨hlegible, hsizeY⟩ := h.child (by decide) hmem
    exact ⟨hlegible.keyword (isKind_of_isOf (by intro k hk; revert hk; cases k <;> decide) hof),
      hsizeY⟩
  have hprint (i : Nat) : print false (.node .call as) .plain i =
      .ok (written (field as "func") ++
        ("(" ++ ", ".intercalate (xs.map written ++ ys.map written) ++ ")")) := by
    change (do return (← (subject .call as).child "func" i) ++
      (← (subject .call as).actuals "args" i)) = _
    rw [Subject.actuals, h.child_eq "func" (by decide) hfunc.printed, h.part_eq "args" (by decide),
      h.part_eq "keywords" (by decide), hxs, hys]
    simp only [bind, Except.bind, elements_printPart,
      mapM_print fun x hx => (hargs x hx).1.printed, mapM_print fun y hy => (hkeywords y hy).1.printed]
    rfl
  have hview : (node .call as).view =
      callOf ((argumentsOf xs ys).map (·.2)) (field as "func").view := by
    have hpositional : ((argumentsOf xs ys).map (·.2)).filterMap Sum.getLeft? = xs.map view := by
      simp [argumentsOf, List.filterMap_map, Function.comp_def]
    have hkeyword : ((argumentsOf xs ys).map (·.2)).filterMap Sum.getRight? = ys.map view := by
      simp [argumentsOf, List.filterMap_map, Function.comp_def]
    rw [callOf, hpositional, hkeyword, ← view_list, ← view_list, ← hxs, ← hys]
    exact view_node h.conforms
  refine isExpression_append hfunc hsize
    ('(' :: ([',', ' '].intercalate ((argumentsOf xs ys).map (·.1)) ++ [')'])) _ hprint
    (by simp [argumentsOf, Function.comp_def]) (firm_enclosed rfl rfl _).2 hview
    fun n hn rest hrest => ?_
  rw [List.cons_append, List.append_assoc]
  refine ⟨border_cons (by decide) (by simp), suffix_call fun q hq => ?_⟩
  rcases List.mem_append.mp hq with hq | hq
  · obtain ⟨x, hx, rfl⟩ := List.mem_map.mp hq
    obtain ⟨hpart, hsizeX⟩ := hargs x hx
    exact argument_positional (hpart.reads n (by omega))
  · obtain ⟨y, hy, rfl⟩ := List.mem_map.mp hq
    obtain ⟨hpart, hsizeY⟩ := hkeywords y hy
    exact hpart.reads n (by omega)

/-! ## Parts of expressions -/

theorem isPart_starred (h : Ready .starred as) :
    IsPart (fun n => Shows (element (expr n))) (.node .starred as) := by
  obtain ⟨hvalue, hsize⟩ := h.expression "value" (by decide) (by decide)
  have hprint (i : Nat) : print false (.node .starred as) .plain i =
      .ok ("*" ++ written (field as "value")) := by
    exact except_bind_of_ok (h.child_eq "value" (by decide) hvalue.printed i) rfl
  refine isPart_of hprint fun n hn => ?_
  rw [view_node h.conforms, String.toList_append]
  exact element_starred (hvalue.shows.reads n (by omega))

theorem isPart_keyword (h : Ready .keyword as) :
    IsPart (fun n text x => ShowsPart (argument (expr n)) ')' text (.inr x)) (.node .keyword as) := by
  obtain ⟨hvalue, hsize⟩ := h.expression "value" (by decide) (by decide)
  have hwritable : ((field as "arg").isNone || (field as "arg").isIdentifier) :=
    (Bool.and_eq_true_iff.mp h.writable).2
  have hview : (node .keyword as).view = .node .keyword [("arg", (field as "arg").view),
      ("value", (field as "value").view)] := view_node h.conforms
  rcases Bool.or_eq_true_iff.mp hwritable with hnone | hidentifier
  · have harg : field as "arg" = .none := by
      cases hv : field as "arg" with
      | none => rfl
      | _ => simp [hv, isNone] at hnone
    have hprint (i : Nat) : print false (.node .keyword as) .plain i =
        .ok ("**" ++ written (field as "value")) := by
      simp only [print_node, Subject.plain, Subject.expression?, kind_subject,
        h.part_eq "arg" (by decide), h.child_eq "value" (by decide) hvalue.printed, bind, Except.bind,
        value_printPart, harg]
      rfl
    refine isPart_of hprint fun n hn => ?_
    rw [hview, harg, String.toList_append]
    exact argument_double (hvalue.shows.reads n (by omega))
  · obtain ⟨w, hw, hidentifier⟩ := exists_of_isIdentifierValue hidentifier
    have hprint (i : Nat) : print false (.node .keyword as) .plain i =
        .ok (w ++ "=" ++ written (field as "value")) := by
      simp only [print_node, Subject.plain, Subject.expression?, kind_subject,
        h.part_eq "arg" (by decide), h.child_eq "value" (by decide) hvalue.printed, bind, Except.bind,
        value_printPart, hw]
      rfl
    refine isPart_of hprint fun n hn => ?_
    rw [hview, hw, String.toList_append, String.toList_append, List.append_assoc]
    exact argument_keyword hidentifier (hvalue.shows.reads n (by omega))

theorem isPart_comprehension (h : Ready .comprehension as) :
    IsPart ShowsClause (.node .comprehension as) := by
  obtain ⟨htarget, hsizeT⟩ := h.expression "target" (by decide) (by decide)
  obtain ⟨hiter, hsizeI⟩ := h.expression "iter" (by decide) (by decide)
  obtain ⟨xs, hxs, hall⟩ := h.expressions "ifs" (by decide) (by decide)
  have hflag : (field as "is_async").isFlag := (Bool.and_eq_true_iff.mp h.writable).2
  obtain ⟨async, hasync⟩ : ∃ async : Bool,
      field as "is_async" = .int (if async then 1 else 0) := by
    cases hv : field as "is_async" with
    | int m =>
      rw [hv] at hflag
      rcases Bool.or_eq_true_iff.mp hflag with hm | hm
      · exact ⟨false, by rw [eq_of_beq hm]; rfl⟩
      · exact ⟨true, by rw [eq_of_beq hm]; rfl⟩
    | _ =>
      rw [hv] at hflag
      cases hflag
  have hprint (i : Nat) : print false (.node .comprehension as) .plain i =
      .ok ((if async then " async" else "") ++ " for " ++ written (field as "target") ++
        " in " ++ written (field as "iter") ++ String.join (xs.map (" if " ++ written ·))) := by
    have hconditions : ((xs.map fun v => (⟨v, print false v⟩ : PrintItem)).mapM fun c => do
        return " if " ++ (← PrintItem.print c .plain i)) = .ok (xs.map (" if " ++ written ·)) := by
      rw [List.mapM_map]
      refine except_mapM_of_ok fun x hx => ?_
      simp only [Function.comp_apply, PrintItem.print, (hall x hx).1.printed i]
      rfl
    have htruthy : (printPart (.int (if async then 1 else 0))).isTruthy = async := by
      cases async <;> rfl
    have hpart := h.part_eq "is_async" (by decide)
    have hifs := h.part_eq "ifs" (by decide)
    rw [hasync] at hpart
    rw [hxs] at hifs
    simp only [print_node, Subject.plain, Subject.expression?, kind_subject, hpart, hifs,
      h.child_eq "target" (by decide) htarget.printed, h.child_eq "iter" (by decide) hiter.printed,
      each, elements_printPart, bind, Except.bind, htruthy] at hconditions ⊢
    rw [hconditions]
    rfl
  have hview : (node .comprehension as).view = .node .comprehension
      [("target", (field as "target").view), ("iter", (field as "iter").view),
        ("ifs", .list ((shown xs).map (·.2))), ("is_async", .int (if async then 1 else 0))] := by
    have hflagOf : (field as "is_async").view = .int (if async then 1 else 0) := by
      rw [hasync]
      rfl
    rw [map_snd_shown, ← view_list, ← hxs, ← hflagOf]
    exact view_node h.conforms
  refine isPart_of hprint fun n hn => ?_
  have hclause := showsClause_comprehension async (htarget.shows.reads n (by omega))
    (hiter.shows.reads n (by omega)) (forall_shown xs fun x hx =>
      (hall x hx).1.shows.reads n (by have := (hall x hx).2; omega))
  rw [hview]
  convert hclause using 1
  cases async <;> simp [shown, List.flatMap_map]

theorem isPart_index (h : Ready .index as) :
    IsPart (fun n => ShowsPart (dimension (expr n)) ']') (.node .index as) := by
  obtain ⟨hvalue, hsize⟩ := h.expression "value" (by decide) (by decide)
  have hnode := isNode_of_isOf (h.one (c := .expr) "value" (by decide)).1
  have hprint (i : Nat) : print false (.node .index as) .plain i =
      .ok (written (field as "value")) := h.child_eq "value" (by decide) hvalue.printed i
  refine isPart_of hprint fun n hn => ?_
  have hview : (node .index as).view = .node .index [("value", (field as "value").view)] :=
    view_node h.conforms
  rw [hview]
  refine dimension_index (hvalue.shows.reads n (by omega)) (isNone_of_isNode ?_)
  rw [view, isNode_outline, hnode]

/-- A part that may be missing, as it is written. -/
def shown? (v : Value) : Option (List Char × Value) :=
  if v.isNone then none else some ((written v).toList, v.view)

theorem valueOf_shown? (v : Value) : valueOf (shown? v) = v.view := by
  unfold shown?
  cases v <;> rfl

theorem textOf_shown? (v : Value) :
    (if v.isNone then "" else "" ++ written v).toList = textOf (shown? v) := by
  unfold shown?
  cases v.isNone <;> simp [textOf]

theorem step_shown? (v : Value) : (if v.isNone then "" else ":" ++ written v).toList =
    (shown? v).elim [] fun q => ':' :: q.1 := by
  unfold shown?
  cases v.isNone <;> simp

theorem isPart_slice (h : Ready .slice as) :
    IsPart (fun n => ShowsPart (dimension (expr n)) ']') (.node .slice as) := by
  have hlower := h.optional "lower" (by decide) (by decide)
  have hupper := h.optional "upper" (by decide) (by decide)
  have hstep := h.optional "step" (by decide) (by decide)
  have hprint (i : Nat) : print false (.node .slice as) .plain i =
      .ok ((if (field as "lower").isNone then "" else "" ++ written (field as "lower")) ++
        ":" ++
        (if (field as "upper").isNone then "" else "" ++ written (field as "upper")) ++
        (if (field as "step").isNone then "" else ":" ++ written (field as "step"))) := by
    refine except_bind_of_ok
      (optional_eq h "" (by decide) (hlower.imp_right fun h => ⟨h.1.1, h.1.2.printed⟩) i) ?_
    refine except_bind_of_ok
      (optional_eq h "" (by decide) (hupper.imp_right fun h => ⟨h.1.1, h.1.2.printed⟩) i) ?_
    exact except_bind_of_ok
      (optional_eq h ":" (by decide) (hstep.imp_right fun h => ⟨h.1.1, h.1.2.printed⟩) i) rfl
  have hview : (node .slice as).view = .node .slice
      [("lower", valueOf (shown? (field as "lower"))),
        ("upper", valueOf (shown? (field as "upper"))),
        ("step", valueOf (shown? (field as "step")))] := by
    rw [valueOf_shown?, valueOf_shown?, valueOf_shown?]
    exact view_node h.conforms
  have hshows {name : String} {n : Nat} (hn : sizeOf (node .slice as) ≤ n)
      (hfield : field as name = .none ∨ ((field as name).isNode ∧
        IsExpression (field as name)) ∧
          sizeOf (field as name) < sizeOf (node .slice as)) :
      ∀ q ∈ shown? (field as name), Shows (expr n) q.1 q.2 := by
    rcases hfield with hnone | ⟨⟨hnode, hexpression⟩, hsize⟩
    · rw [hnone]
      exact fun q hq => nomatch hq
    · rw [shown?, isNone_of_isNode hnode]
      rintro q ⟨⟩
      exact hexpression.shows.reads n (by omega)
  refine isPart_of hprint fun n hn => ?_
  rw [hview]
  simp only [String.toList_append, textOf_shown?, step_shown?, List.append_assoc]
  exact dimension_slice (hshows hn hlower) (hshows hn hupper) (hshows hn hstep)

theorem isPart_extSlice (h : Ready .extSlice as) : IsPart ShowsSlice (.node .extSlice as) := by
  obtain ⟨xs, hxs, hmany⟩ := h.many (c := .slice) "dims" (by decide)
  have hwritable : (decide (2 ≤ (items as "dims").length) &&
      (items as "dims").all (!·.isKind .extSlice)) :=
    (Bool.and_eq_true_iff.mp h.writable).2
  rw [Attrs.items_eq hxs, Bool.and_eq_true, decide_eq_true_eq, List.all_eq_true] at hwritable
  have hall : ∀ x ∈ xs, IsPart (fun n => ShowsPart (dimension (expr n)) ']') x ∧
      sizeOf x < sizeOf (node .extSlice as) := by
    intro x hx
    obtain ⟨hof, hmem⟩ := hmany x hx
    obtain ⟨hlegible, hsize⟩ := h.child (by decide) hmem
    exact ⟨hlegible.dimension hof (by simpa using hwritable.2 x hx), hsize⟩
  have hprint (i : Nat) : print false (.node .extSlice as) .plain i =
      .ok (", ".intercalate (xs.map written)) :=
    commaList_eq h (by decide) hxs (fun x hx => (hall x hx).1.printed) i
  have hview : (node .extSlice as).view =
      .node .extSlice [("dims", .list ((shown xs).map (·.2)))] := by
    rw [map_snd_shown, ← view_list, ← hxs]
    exact view_node h.conforms
  refine isPart_of hprint fun n hn rest => ?_
  have htext : (", ".intercalate (xs.map written)).toList =
      [',', ' '].intercalate ((shown xs).map (·.1)) := by
    simp [Function.comp_def]
  rw [hview, htext]
  exact suffix_extSlice (forall_shown xs fun x hx =>
    (hall x hx).1.reads n (by have := (hall x hx).2; omega)) (by simpa [shown] using hwritable.1)

end

/-! ## Expressions are determined by their text -/

theorem isExpression_node {k : Kind} {as : Attrs} (h : Ready k as)
    (hexpr : k.category? = some .expr) (hstarred : k ≠ .starred) : IsExpression (.node k as) := by
  have hplain : k ≠ .lambda ∧ k ≠ .formattedValue ∧ k ≠ .joinedStr := by
    have hwritable := (Bool.and_eq_true_iff.mp h.writable).2
    refine ⟨?_, ?_, ?_⟩ <;>
      · rintro rfl
        cases hwritable
  cases k with
  | boolOp => exact isExpression_boolOp h
  | namedExpr => exact isExpression_namedExpr h
  | binOp => exact isExpression_binOp h
  | unaryOp => exact isExpression_unaryOp h
  | ifExp => exact isExpression_ifExp h
  | dict => exact isExpression_dict h
  | set => exact isExpression_set h
  | listComp => exact isExpression_listComp h
  | setComp => exact isExpression_setComp h
  | generatorExp => exact isExpression_generatorExp h
  | dictComp => exact isExpression_dictComp h
  | await => exact isExpression_await h
  | yield => exact isExpression_yield h
  | yieldFrom => exact isExpression_yieldFrom h
  | compare => exact isExpression_compare h
  | call => exact isExpression_call h
  | constant => exact isExpression_constant h
  | attributeRef => exact isExpression_attributeRef h
  | subscript => exact isExpression_subscript h
  | name => exact isExpression_name h
  | list => exact isExpression_list h
  | tuple => exact isExpression_tuple h
  | starred => exact absurd rfl hstarred
  | lambda => exact absurd rfl hplain.1
  | formattedValue => exact absurd rfl hplain.2.1
  | joinedStr => exact absurd rfl hplain.2.2
  | _ => cases hexpr

theorem legible_node {k : Kind} {as : Attrs} (h : Ready k as) : Legible (.node k as) := by
  have hkind {l : Kind} (hl : (node k as).isKind l) : k = l := by
    simpa [isKind, kind?] using hl
  have hother {l : Kind} (hl : (node k as).isKind l = false) : k ≠ l := by
    simpa [isKind, kind?] using hl
  have hcategory {c : Category} (hc : (node k as).isOf c) : k.category? = some c := by
    simpa [isOf, kind?] using hc
  have hdimension (hof : k.category? = some .slice) (hext : k ≠ .extSlice) :
      IsPart (fun n => ShowsPart (dimension (expr n)) ']') (.node k as) := by
    cases k with
    | slice => exact isPart_slice h
    | index => exact isPart_index h
    | extSlice => exact absurd rfl hext
    | _ => cases hof
  refine ⟨fun hof hl => isExpression_node h (hcategory hof) (hother hl), ?_, ?_, ?_,
    fun hof hl => hdimension (hcategory hof) (hother hl), fun hof => ?_⟩
  · intro hl
    obtain rfl := hkind hl
    exact isPart_starred h
  · intro hl
    obtain rfl := hkind hl
    exact isPart_keyword h
  · intro hl
    obtain rfl := hkind hl
    exact isPart_comprehension h
  · by_cases hext : k = .extSlice
    · subst hext
      exact isPart_extSlice h
    · exact (hdimension (hcategory hof) hext).mono fun n text x hx rest => suffix_subscript hx

theorem legible_of_throughout (v : Value) (hwf : v.throughout (fun _ => true) Kind.conforms)
    (hwritable : v.throughout (fun _ => true) Kind.isWritable) (hnode : v.isNode) :
    Legible v := by
  induction v using walkInduction with
  | node k as ih =>
    obtain ⟨-, hwfBelow⟩ := throughout_node.mp hwf
    obtain ⟨hat, hbelow⟩ := throughout_node.mp hwritable
    exact legible_node ⟨hwf, hat, fun u hu => ih u hu (hwfBelow rfl u hu) (hbelow rfl u hu)
      (isNode_of_mem_children hu)⟩
  | rest v hn => rw [hn] at hnode; cases hnode

theorem isExpression_of_isExpression (h : v.isExpression) : IsExpression v := by
  simp only [isExpression, wellFormed, Bool.and_eq_true, Bool.not_eq_true'] at h
  obtain ⟨⟨⟨⟨hnode, hwf⟩, hexpr⟩, hstarred⟩, hwritable⟩ := h
  exact (legible_of_throughout v hwf hwritable hnode).expression hexpr hstarred

theorem IsExpression.source_eq (h : IsExpression v) : v.source false = .ok (written v) := by
  have htext : v.sourceText false = .ok (written v) := by
    rw [sourceText, h.printed 0]
    exact congrArg Except.ok (strip_of_firm h.firm)
  rw [source, htext]

theorem IsExpression.view_eq {w : Value} (hv : IsExpression v) (hw : IsExpression w)
    (h : written v = written w) : v.view = w.view := by
  have hreadV := hv.shows.reads (sizeOf v + sizeOf w + 1) (by omega) [] rfl
  have hreadW := hw.shows.reads (sizeOf v + sizeOf w + 1) (by omega) [] rfl
  rw [h, hreadW] at hreadV
  exact (congrArg Prod.fst (Option.some.inj hreadV)).symm

end Source

namespace Value

open Source Reader

theorem source_of_isExpression (h : v.isExpression) : v.source false = .ok (written v) :=
  (isExpression_of_isExpression h).source_eq

/-- The call `f(*y, k=1 .real)` in one context throughout. -/
def starredCall (ctx : Kind) : Value :=
  node .call [("func", node .name [("id", str "f"), ("ctx", node ctx []), ("lineno", int 1)]),
    ("args", list [node .starred [("value", node .name [("id", str "y"), ("ctx", node ctx [])]),
      ("ctx", node ctx [])]]),
    ("keywords", list [node .keyword [("arg", str "k"), ("value", node .attributeRef
      [("value", node .constant [("value", int 1), ("kind", none)]), ("attr", str "real"),
        ("ctx", node ctx [])])]])]

end Value

end TreeMacros
