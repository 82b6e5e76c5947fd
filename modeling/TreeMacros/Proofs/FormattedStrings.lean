import TreeMacros.Proofs.SourceText

/-!
# Formatted strings are determined by their text

Text between the fields of a formatted string is written with two escapes only: an apostrophe gets
a backslash, and the end of a line is a backslash and an `n`. Braces and backslashes stand for
themselves. So texts can be read back only if they are free of braces and if no backslash in them
is followed by an `n` or by the end of the text.

With this, and with the text between two fields in one piece, formatted strings can be written down
like other expressions, with formats nested as deep as they may be.
-/

namespace TreeMacros

open Text (apostrophe)
open Value hiding none set
open Attrs (field get? items)

variable {code : String} {x : Value} {xs : List Value}

/-! ## What can be written down -/

/-- Text for a formatted string: no braces, and no backslash in front of an `n` or at the end. -/
def Source.isClear : List Char → Bool
  | [] => true
  | c :: cs =>
    c != '\x7b' && c != '\x7d' && !(c == '\\' && cs.head?.all (· == 'n')) && isClear cs

namespace Value

/-- Text between the fields of a formatted string. -/
def isClearText (v : Value) : Bool :=
  match v with
  | str s => s != "" && Source.isClear s.toList
  | _ => false

def isConversion (v : Value) : Bool :=
  match v with
  | int n => [-1, 115, 114, 97].contains n
  | _ => false

/-- No text is next to another one. -/
def isMerged : List Value → Bool
  | x :: y :: ys => !(x.isKind .constant && y.isKind .constant) && isMerged (y :: ys)
  | _ => true

def isTemplatePiece (v : Value) : Bool :=
  match v with
  | node .constant as => (field as "value").isClearText && (field as "kind").isNone
  | node .formattedValue _ => true
  | _ => false

end Value

/-- Whether a node of an expression, with what it holds, can be written down, apart from functions
without a name. Fields stand in formatted strings only. -/
def Kind.isFormattable (k : Kind) (as : Attrs) : Bool :=
  match k with
  | joinedStr =>
    (items as "values").all (·.isTemplatePiece) && isMerged (items as "values")
  | formattedValue =>
    !(field as "value").isKind .starred && !(field as "value").isKind .formattedValue &&
      (field as "conversion").isConversion &&
      ((field as "format_spec").isNone || (field as "format_spec").isKind .joinedStr)
  | k => k.isWritable as && (children k as).all (!·.isKind .formattedValue)

/-- Expressions that can be written down, with formatted strings among them. -/
def Value.isFormattedExpression (v : Value) : Bool :=
  v.wellFormed && v.isOf .expr && !v.isKind .starred && !v.isKind .formattedValue &&
    v.throughout (fun _ => true) Kind.isFormattable

/-! ## Reading text and fields -/

namespace Reader

open Source

variable {n m : Nat} {c : Char} {cs text rest : List Char} {v : Value}

theorem literalChar_plain (hc : isMark c = false)
    (hnext : c = '\\' → cs.head? ≠ some apostrophe ∧ cs.head? ≠ some 'n') :
    literalChar (c :: cs) = some (c, cs) := by
  have hexpect (d : Char) (hd : c = '\\' → cs.head? ≠ some d) : expect ['\\', d] (c :: cs) = none := by
    by_cases hslash : c = '\\'
    · subst hslash
      cases cs with
      | nil => simp [expect, List.isPrefixOf?]
      | cons x xs =>
        have hx : d ≠ x := by
          rintro rfl
          exact hd rfl rfl
        simp [expect, List.isPrefixOf?, hx]
    · simp [expect, List.isPrefixOf?, Ne.symm hslash]
  apply orElse_of_none (bind_none (hexpect _ fun h => (hnext h).1))
  apply orElse_of_none (bind_none (hexpect _ fun h => (hnext h).2))
  simp [plainChar, hc]

theorem literalChar_none (h : rest.head?.all isMark) : literalChar rest = none := by
  cases rest with
  | nil => rfl
  | cons c rest =>
    have hc : isMark c := h
    have hslash : '\\' ≠ c := by
      rintro rfl
      cases hc
    have hexpect (d : Char) : expect ['\\', d] (c :: rest) = none := by
      simp [expect, List.isPrefixOf?, hslash]
    apply orElse_of_none (bind_none (hexpect _))
    apply orElse_of_none (bind_none (hexpect _))
    simp [plainChar, hc]

/-- A character is read as it has been written, unless it is a backslash and what follows is
mistaken for what it escapes. -/
theorem literalChar_escapeChar (hbrace : c ≠ '\x7b' ∧ c ≠ '\x7d')
    (hnext : c = '\\' → rest.head? ≠ some apostrophe ∧ rest.head? ≠ some 'n') :
    literalChar (escapeChar c ++ rest) = some (c, rest) := by
  by_cases happ : c = apostrophe
  · subst happ
    exact orElse_run (bind_of_run (expect_run ['\\', apostrophe] rest) rfl)
  · by_cases hline : c = '\n'
    · subst hline
      exact orElse_of_none rfl (orElse_run (bind_of_run (expect_run ['\\', 'n'] rest) rfl))
    · have hmark : isMark c = false := by
        simp [isMark, hbrace.1, hbrace.2, happ]
      rw [escapeChar, if_neg happ, if_neg hline]
      exact literalChar_plain hmark hnext

theorem escapeChar_ne_nil (c : Char) : escapeChar c ≠ [] := by
  unfold escapeChar
  split
  · simp
  · split <;> simp

theorem head?_escapeChar (hc : c ≠ 'n') (rest : List Char) :
    (escapeChar c ++ rest).head? ≠ some apostrophe ∧ (escapeChar c ++ rest).head? ≠ some 'n' := by
  unfold escapeChar
  split
  · simp [apostrophe]
  · split
    · simp [apostrophe]
    · simp [*]

theorem many_literalChar (hcs : isClear cs) (hrest : rest.head?.all isMark) :
    many literalChar (cs.flatMap escapeChar ++ rest) = some (cs, rest) := by
  induction cs with
  | nil => exact many_stop (literalChar_none hrest)
  | cons c cs ih =>
    simp only [isClear, Bool.and_eq_true, bne_iff_ne, Bool.not_eq_true'] at hcs
    obtain ⟨⟨hbrace, hslash⟩, hclear⟩ := hcs
    have hnext (hc : c = '\\') : (cs.flatMap escapeChar ++ rest).head? ≠ some apostrophe ∧
        (cs.flatMap escapeChar ++ rest).head? ≠ some 'n' := by
      cases cs with
      | nil => simp [hc] at hslash
      | cons d ds =>
        have hd : d ≠ 'n' := by simpa [hc] using hslash
        rw [List.flatMap_cons, List.append_assoc]
        exact head?_escapeChar hd _
    have hlt : (cs.flatMap escapeChar ++ rest).length <
        (escapeChar c ++ (cs.flatMap escapeChar ++ rest)).length := by
      have hpos := List.length_pos_iff.mpr (escapeChar_ne_nil c)
      simp only [List.length_append]
      omega
    rw [List.flatMap_cons, List.append_assoc, many_step (literalChar_escapeChar hbrace hnext) hlt,
      ih hclear]
    rfl

theorem literalPiece_run (hne : cs ≠ []) (hcs : isClear cs)
    (hrest : rest.head?.all isMark) :
    literalPiece (cs.flatMap escapeChar ++ rest) =
      some (constant (.str (String.ofList cs)) .none, rest) := by
  refine bind_of_run (many_literalChar hcs hrest) ?_
  rw [if_neg (by simpa using hne)]
  rfl

theorem literalPiece_none (hrest : rest.head?.all isMark) : literalPiece rest = none :=
  bind_of_run (many_stop (literalChar_none hrest)) rfl

/-- The text of a conversion is read if nothing follows but the format or the end of the field. -/
theorem conversion_run (hv : v.isConversion) :
    ∃ s, Source.Subject.conversion v = .ok s ∧
      (∀ rest, endsHere rest → endsHere (s.toList ++ rest)) ∧
      ∀ rest, rest.head? ≠ some '!' → conversion (s.toList ++ rest) = some (v, rest) := by
  cases v with
  | int k =>
    have hk : k = -1 ∨ k = 115 ∨ k = 114 ∨ k = 97 := by
      simpa [isConversion] using hv
    rcases hk with rfl | rfl | rfl | rfl
    · refine ⟨"", rfl, fun rest h => h, fun rest h => ?_⟩
      have hexpect (d : Char) : expect ['!', d] rest = none := by
        cases rest with
        | nil => rfl
        | cons c rest =>
          have hc : '!' ≠ c := by
            rintro rfl
            exact h rfl
          simp [expect, List.isPrefixOf?, hc]
      apply orElse_of_none (bind_none (hexpect _))
      apply orElse_of_none (bind_none (hexpect _))
      apply orElse_of_none (bind_none (hexpect _))
      rfl
    · exact ⟨"!s", rfl, fun _ _ => rfl, fun rest _ =>
        orElse_run (bind_of_run (expect_run ['!', 's'] rest) rfl)⟩
    · exact ⟨"!r", rfl, fun _ _ => rfl, fun rest _ => orElse_of_none rfl
        (orElse_run (bind_of_run (expect_run ['!', 'r'] rest) rfl))⟩
    · exact ⟨"!a", rfl, fun _ _ => rfl, fun rest _ => orElse_of_none rfl (orElse_of_none rfl
        (orElse_run (bind_of_run (expect_run ['!', 'a'] rest) rfl)))⟩
  | _ => cases hv

theorem replacement_none {e spec : Reader Value} (h : rest.head? ≠ some '\x7b') :
    replacement e spec rest = none := by
  apply bind_none
  cases rest with
  | nil => rfl
  | cons c rest =>
    have hc : '\x7b' ≠ c := by
      rintro rfl
      exact h rfl
    simp [expect, List.isPrefixOf?, hc]

theorem replacement_run {spec : Reader Value} {format : List Char} {c f : Value}
    (hx : Shows (expr n) text x)
    (hends : ∀ rest, endsHere rest → endsHere (code.toList ++ rest))
    (hcode : ∀ rest, rest.head? ≠ some '!' → conversion (code.toList ++ rest) = some (c, rest))
    (hformat : format = [] ∧ f = .none ∨ ∃ t, format = ':' :: t ∧
      ∀ rest, rest.head? = some '\x7d' → spec (t ++ rest) = some (f, rest)) (rest : List Char) :
    replacement (expr n) spec ('\x7b' :: (text ++ (code.toList ++ (format ++ '\x7d' :: rest)))) =
      some (.node .formattedValue [("value", x), ("conversion", c), ("format_spec", f)], rest) := by
  have hhead : endsHere (format ++ '\x7d' :: rest) ∧
      (format ++ '\x7d' :: rest).head? ≠ some '!' := by
    rcases hformat with ⟨rfl, -⟩ | ⟨t, rfl, -⟩
    · exact ⟨rfl, by simp⟩
    · exact ⟨rfl, by simp⟩
  refine bind_of_run (expect_run ['\x7b'] _) (bind_of_run (hx _ (hends _ hhead.1)) ?_)
  refine bind_of_run (hcode _ hhead.2) ?_
  refine bind_of_run (r := '\x7d' :: rest) (a := f) ?_ (bind_of_run (expect_run ['\x7d'] rest) rfl)
  rcases hformat with ⟨rfl, rfl⟩ | ⟨t, rfl, hspec⟩
  · exact orElse_of_none rfl rfl
  · exact orElse_run (bind_of_run (expect_run [':'] _) (hspec _ rfl))

/-- Text and fields are read one after the other: text goes on up to a mark, and a field starts with
one. -/
theorem many_pieces {step : Reader Value} {text : Value → List Char} (hstop : step rest = none)
    (hrest : rest.head?.all isMark) (hmerged : isMerged xs)
    (htext : ∀ x ∈ xs, x.isKind .constant → text x ≠ [] ∧
      ∀ r, r.head?.all isMark → step (text x ++ r) = some (x.view, r))
    (hfield : ∀ x ∈ xs, x.isKind .constant = false → (text x).head? = some '\x7b' ∧
      ∀ r, step (text x ++ r) = some (x.view, r)) :
    many step (xs.flatMap text ++ rest) = some (xs.map view, rest) := by
  induction xs with
  | nil => exact many_stop hstop
  | cons x xs ih =>
    have hmergedBelow : isMerged xs := by
      cases xs with
      | nil => rfl
      | cons y ys => exact (Bool.and_eq_true_iff.mp hmerged).2
    have hmany := ih hmergedBelow (fun y hy => htext y (List.mem_cons_of_mem x hy))
      fun y hy => hfield y (List.mem_cons_of_mem x hy)
    have hnext (hx : x.isKind .constant) : (xs.flatMap text ++ rest).head?.all isMark := by
      cases xs with
      | nil => exact hrest
      | cons y ys =>
        have hy : y.isKind .constant = false := by
          have hpair := (Bool.and_eq_true_iff.mp hmerged).1
          simpa [hx] using hpair
        have hhead := (hfield y (by simp) hy).1
        rw [List.flatMap_cons, List.append_assoc, List.head?_append, hhead]
        rfl
    have hstep : text x ≠ [] ∧ step (text x ++ (xs.flatMap text ++ rest)) =
        some (x.view, xs.flatMap text ++ rest) := by
      cases hx : x.isKind .constant with
      | true =>
        obtain ⟨hne, hread⟩ := htext x List.mem_cons_self hx
        exact ⟨hne, hread _ (hnext hx)⟩
      | false =>
        obtain ⟨hhead, hread⟩ := hfield x List.mem_cons_self hx
        refine ⟨?_, hread _⟩
        intro hnil
        rw [hnil] at hhead
        cases hhead
    have hlt : (xs.flatMap text ++ rest).length < (text x ++ (xs.flatMap text ++ rest)).length := by
      have hpos := List.length_pos_iff.mpr hstep.1
      simp only [List.length_append]
      omega
    rw [List.flatMap_cons, List.append_assoc, many_step hstep.2 hlt, hmany]
    rfl

end Reader

/-! ## Legible fields and formatted strings -/

namespace Source

open Reader

variable {as : Attrs} {v : Value}

/-- The text of a value in one of the manners of printing. -/
def writtenAs (manner : Manner) (v : Value) : String := (print false v manner 0).toOption.getD ""

/-- The value has a text in this manner, which does not depend on its place. -/
def IsPrintedAs (manner : Manner) (v : Value) : Prop :=
  ∀ i, print false v manner i = .ok (writtenAs manner v)

theorem isPrintedAs_of {manner : Manner} {s : String} (h : ∀ i, print false v manner i = .ok s) :
    IsPrintedAs manner v ∧ writtenAs manner v = s := by
  have hs : writtenAs manner v = s := by
    rw [writtenAs, h 0]
    rfl
  exact ⟨fun i => (h i).trans (by rw [hs]), hs⟩

/-- The text of a field is read as the field. -/
structure IsField (v : Value) : Prop where
  printed : IsPrintedAs .field v
  brace : (writtenAs .field v).toList.head? = some '\x7b'
  reads : ∀ n m, sizeOf v ≤ n → (writtenAs .field v).length ≤ m → ∀ rest,
    replacement (expr n) (Reader.pieces (expr n) m) ((writtenAs .field v).toList ++ rest) =
      some (v.view, rest)

/-- The text between the apostrophes of a formatted string is read as the formatted string. -/
structure IsTemplate (v : Value) : Prop where
  printed : IsPrintedAs .pieces v
  reads : ∀ n m, sizeOf v ≤ n → (writtenAs .pieces v).length < m → ∀ rest,
    rest.head? = some '\x7d' ∨ rest.head? = some Text.apostrophe →
      Reader.pieces (expr n) m ((writtenAs .pieces v).toList ++ rest) = some (v.view, rest)

def formatText (v : Value) : String := if v.isNone then "" else ":" ++ writtenAs .pieces v

theorem print_replacement (h : Kind.conforms .formattedValue as)
    (hvalue : IsPrinted (field as "value"))
    (hcode : Subject.conversion (field as "conversion") = .ok code)
    (hformat : field as "format_spec" = .none ∨
      (field as "format_spec").isNode = true ∧ IsPrintedAs .pieces (field as "format_spec"))
    (i : Nat) :
    print false (.node .formattedValue as) .field i =
      .ok ("\x7b" ++ written (field as "value") ++ code ++
        formatText (field as "format_spec") ++ "\x7d") := by
  change (subject .formattedValue as).replacement i = _
  rw [Subject.replacement, child_of_conforms h (by decide), hvalue i,
    part_of_conforms h (by decide), part_of_conforms h (by decide)]
  change (do
    let code ← Subject.conversion (printPart (field as "conversion")).value
    let format ← if (printPart (field as "format_spec")).isTruthy then do
      pure (":" ++ (← print false (field as "format_spec") .pieces i)) else pure ""
    return "\x7b" ++ written (field as "value") ++ code ++ format ++ "\x7d") = _
  rw [value_printPart, hcode, PrintPart.isTruthy, value_printPart, formatText]
  rcases hformat with hnone | ⟨hnode, hprinted⟩
  · rw [hnone]
    rfl
  · have htruthy : (field as "format_spec").isTruthy := by
      cases hv : field as "format_spec" with
      | node => rfl
      | _ => simp [hv, isNode] at hnode
    rw [htruthy, isNone_of_isNode hnode, hprinted i]
    rfl

theorem mem_children_of_isNode {k : Kind} {name : String} (hname : name ∈ k.fieldNames)
    (h : (field as name).isNode) : field as name ∈ children k as := by
  cases hget : get? as name with
  | none => simp [field, hget, isNode] at h
  | some v =>
    have hv : field as name = v := by
      rw [field, hget]
      rfl
    rw [hv] at h ⊢
    exact mem_children_of_get? hname hget h

/-- Each node, those in formatted strings included, is read from its text. -/
structure Composed (v : Value) : Prop where
  legible : v.isKind .formattedValue = false → Legible v
  field : v.isKind .formattedValue = true → IsField v
  template : v.isKind .joinedStr = true → IsTemplate v

theorem isField_node (h : Kind.conforms .formattedValue as)
    (hat : Kind.isFormattable .formattedValue as)
    (hbelow : ∀ u ∈ children .formattedValue as, Composed u) :
    IsField (.node .formattedValue as) := by
  simp only [Kind.isFormattable, Bool.and_eq_true, Bool.or_eq_true, Bool.not_eq_true'] at hat
  obtain ⟨⟨⟨hstarred, hfield⟩, hconversion⟩, hspec⟩ := hat
  have hexpr : (field as "value").isOf .expr := by
    obtain ⟨v, hv, hc⟩ := Kind.exists_of_conforms h "value" (.one .expr) (by decide)
    rw [field, hv]
    exact hc
  have hvalue : IsExpression (field as "value") ∧
      sizeOf (field as "value") < sizeOf (node .formattedValue as) := by
    have hmem := mem_children_of_isNode (k := .formattedValue) (by decide) (isNode_of_isOf hexpr)
    exact ⟨((hbelow _ hmem).legible hfield).expression hexpr hstarred,
      sizeOf_lt_of_mem_children hmem⟩
  have hformat : field as "format_spec" = .none ∨
      ((field as "format_spec").isNode ∧ IsTemplate (field as "format_spec")) ∧
        sizeOf (field as "format_spec") < sizeOf (node .formattedValue as) := by
    rcases hspec with hnone | hjoined
    · left
      cases hf : field as "format_spec" with
      | none => rfl
      | _ => simp [hf, isNone] at hnone
    · right
      have hnode : (field as "format_spec").isNode := by
        obtain ⟨jas, hj⟩ := exists_of_isKind hjoined
        rw [hj]
        rfl
      have hmem := mem_children_of_isNode (k := .formattedValue) (by decide) hnode
      exact ⟨⟨hnode, (hbelow _ hmem).template hjoined⟩, sizeOf_lt_of_mem_children hmem⟩
  obtain ⟨code, hcode, hends, hreads⟩ := conversion_run hconversion
  obtain ⟨hprinted, htext⟩ := isPrintedAs_of (print_replacement h hvalue.1.printed hcode
    (hformat.imp_right fun h => ⟨h.1.1, h.1.2.printed⟩))
  refine ⟨hprinted, by rw [htext]; simp, fun n m hn hm rest => ?_⟩
  have hview : (node .formattedValue as).view = .node .formattedValue
      [("value", (field as "value").view), ("conversion", field as "conversion"),
        ("format_spec", (field as "format_spec").view)] := by
    have hint : (field as "conversion").view = field as "conversion" := by
      cases hc : field as "conversion" with
      | int => rfl
      | _ => simp [hc, isConversion] at hconversion
    rw [view_node h, ← hint]
    rfl
  rw [htext] at hm ⊢
  rw [hview]
  simp only [String.toList_append, List.append_assoc]
  refine replacement_run (hvalue.1.shows.reads n (by omega)) hends hreads ?_ rest
  rcases hformat with hnone | ⟨⟨hnode, htemplate⟩, hsize⟩
  · left
    rw [hnone]
    exact ⟨rfl, rfl⟩
  · right
    -- The format is shorter than the field, so the bound on the field's text does for it.
    rw [formatText, isNone_of_isNode hnode] at hm ⊢
    refine ⟨(writtenAs .pieces (field as "format_spec")).toList, by simp, ?_⟩
    intro r hr
    refine htemplate.reads n m (by omega) ?_ r (.inl hr)
    simp only [String.length_append, Bool.false_eq_true, ↓reduceIte] at hm
    have hbrace : "\x7b".length = 1 := rfl
    omega

def pieceText (v : Value) : String :=
  match v with
  | .node .constant as =>
    match field as "value" with
    | .str s => escapePiece s
    | _ => ""
  | v => writtenAs .field v

theorem exists_of_isTemplatePiece {u : Value} (h : u.isTemplatePiece)
    (hkind : u.isKind .constant) :
    ∃ cas s, u = .node .constant cas ∧ get? cas "value" = some (.str s) ∧
      field cas "kind" = .none ∧ s.toList ≠ [] ∧ isClear s.toList := by
  obtain ⟨cas, rfl⟩ := exists_of_isKind hkind
  simp only [isTemplatePiece, Bool.and_eq_true] at h
  obtain ⟨htext, hnone⟩ := h
  have hkindNone : field cas "kind" = .none := by
    cases hk : field cas "kind" with
    | none => rfl
    | _ => simp [hk, isNone] at hnone
  cases hget : get? cas "value" with
  | none => simp [field, hget, isClearText] at htext
  | some v =>
    rw [field, hget] at htext
    cases v with
    | str s =>
      simp only [Option.getD_some, isClearText, Bool.and_eq_true, bne_iff_ne] at htext
      exact ⟨cas, s, rfl, hget, hkindNone, by simpa using htext.1, htext.2⟩
    | _ => cases htext

theorem isKind_of_isTemplatePiece {u : Value} (h : u.isTemplatePiece)
    (hkind : u.isKind .constant = false) : u.isKind .formattedValue := by
  unfold isTemplatePiece at h
  split at h
  · simp [isKind, kind?] at hkind
  · rfl
  · cases h

theorem pieceOf_eq (hpiece : x.isTemplatePiece)
    (hfield : x.isKind .formattedValue → IsField x) (s : Subject) (i : Nat) :
    s.pieceOf i ⟨x, print false x⟩ = .ok (pieceText x) := by
  cases hkind : x.isKind .constant with
  | true =>
    obtain ⟨cas, t, rfl, hget, -, -, -⟩ := exists_of_isTemplatePiece hpiece hkind
    have htext : pieceText (.node .constant cas) = escapePiece t := by
      simp [pieceText, field, hget]
    have hattr : (node .constant cas).attr "value" = .ok (.str t) := by
      simp [attr, attr?, hget]
    rw [htext]
    change (do piece (← (node .constant cas).attr "value")) = _
    rw [hattr]
    rfl
  | false =>
    have hformatted := isKind_of_isTemplatePiece hpiece hkind
    obtain ⟨xas, rfl⟩ := exists_of_isKind hformatted
    exact (hfield hformatted).printed i

theorem print_pieces (h : Kind.conforms .joinedStr as) (hxs : field as "values" = .list xs)
    (hpieces : ∀ x ∈ xs, x.isTemplatePiece)
    (hfields : ∀ x ∈ xs, x.isKind .formattedValue → IsField x) (i : Nat) :
    (subject .joinedStr as).pieces i = .ok (String.join (xs.map pieceText)) := by
  rw [Subject.pieces, part_of_conforms h (by decide), hxs]
  change (do each (← (printPart (.list xs)).elements) ((subject .joinedStr as).pieceOf i)) = _
  rw [elements_printPart]
  change (do return String.join (← (xs.map fun v => (⟨v, print false v⟩ : PrintItem)).mapM
    ((subject .joinedStr as).pieceOf i))) = _
  have hmap : (xs.map fun v => (⟨v, print false v⟩ : PrintItem)).mapM
      ((subject .joinedStr as).pieceOf i) = .ok (xs.map pieceText) := by
    rw [List.mapM_map]
    exact except_mapM_of_ok fun x hx => pieceOf_eq (hpieces x hx) (hfields x hx) _ i
  rw [hmap]
  rfl

theorem length_le_of_mem (hx : x ∈ xs) :
    (pieceText x).length ≤ (String.join (xs.map pieceText)).length := by
  induction xs with
  | nil => cases hx
  | cons y ys ih =>
    rw [List.map_cons, String.join_cons, String.length_append]
    rcases List.mem_cons.mp hx with rfl | hx
    · omega
    · have hbelow := ih hx
      omega

theorem literalPiece_pieceText (hpiece : x.isTemplatePiece)
    (hkind : x.isKind .constant) (hwf : x.throughout (fun _ => true) Kind.conforms) :
    (pieceText x).toList ≠ [] ∧ ∀ r, r.head?.all isMark →
      literalPiece ((pieceText x).toList ++ r) = some (x.view, r) := by
  obtain ⟨cas, t, rfl, hget, hnone, hne, hclear⟩ := exists_of_isTemplatePiece hpiece hkind
  have hvalue : field cas "value" = .str t := by
    rw [field, hget]
    rfl
  have htext : (pieceText (.node .constant cas)).toList = t.toList.flatMap escapeChar := by
    rw [pieceText, hvalue]
    exact String.toList_ofList
  have hview : (node .constant cas).view = constant (.str t) .none := by
    have hfields : (node .constant cas).view = .node .constant
        [("value", (field cas "value").view), ("kind", (field cas "kind").view)] :=
      view_node (throughout_node.mp hwf).1
    rw [hfields, hvalue, hnone]
    rfl
  rw [htext, hview]
  constructor
  · cases hcs : t.toList with
    | nil => exact absurd hcs hne
    | cons c cs =>
      rw [List.flatMap_cons]
      exact List.append_ne_nil_of_left_ne_nil (escapeChar_ne_nil c) _
  · intro r hr
    rw [literalPiece_run hne hclear hr, String.ofList_toList]

theorem pieceText_of_isKind (hkind : x.isKind .formattedValue) :
    pieceText x = writtenAs .field x := by
  obtain ⟨xas, rfl⟩ := exists_of_isKind hkind
  rfl

theorem isTemplate_node (h : Kind.conforms .joinedStr as)
    (hat : Kind.isFormattable .joinedStr as)
    (hwf : ∀ u ∈ children .joinedStr as, u.throughout (fun _ => true) Kind.conforms)
    (hbelow : ∀ u ∈ children .joinedStr as, Composed u) :
    IsTemplate (.node .joinedStr as) := by
  obtain ⟨v, hget, hmany⟩ := Kind.exists_of_conforms h "values" (.many .expr) (by decide)
  obtain ⟨xs, rfl, hof⟩ := exists_of_admits_many hmany
  have hxs : field as "values" = .list xs := by
    rw [field, hget]
    rfl
  have hmem : ∀ x ∈ xs, x ∈ children .joinedStr as := fun x hx =>
    mem_children.mpr ⟨"values", by decide,
      mem_childrenAt.mpr ⟨isNode_of_isOf (hof x hx), .inr ⟨xs, hget, hx⟩⟩⟩
  simp only [Kind.isFormattable, Attrs.items_eq hxs, Bool.and_eq_true, List.all_eq_true] at hat
  obtain ⟨hpieces, hmerged⟩ := hat
  have hfields : ∀ x ∈ xs, x.isKind .formattedValue → IsField x := fun x hx hk =>
    (hbelow x (hmem x hx)).field hk
  obtain ⟨hprinted, htext⟩ := isPrintedAs_of
    (show ∀ i, print false (.node .joinedStr as) .pieces i = _ from print_pieces h hxs hpieces hfields)
  have hview : (node .joinedStr as).view =
      .node .joinedStr [("values", .list (xs.map view))] := by
    rw [← view_list, ← hxs]
    exact view_node h
  refine ⟨hprinted, fun n m hn hm rest hrest => ?_⟩
  have hmark : rest.head?.all isMark := by
    rcases hrest with hrest | hrest <;> rw [hrest] <;> rfl
  have hbrace : rest.head? ≠ some '\x7b' := by
    rcases hrest with hrest | hrest <;> rw [hrest] <;> simp [apostrophe]
  rw [htext] at hm ⊢
  obtain ⟨m, rfl⟩ : ∃ k, m = k + 1 := ⟨m - 1, by omega⟩
  rw [hview]
  have hflat : (String.join (xs.map pieceText)).toList = xs.flatMap fun x => (pieceText x).toList := by
    simp [List.flatMap_map]
  have htexts : ∀ x ∈ xs, x.isKind .constant → (pieceText x).toList ≠ [] ∧
      ∀ r, r.head?.all isMark →
        (literalPiece <|> replacement (expr n) (Reader.pieces (expr n) m)) ((pieceText x).toList ++ r) =
          some (x.view, r) := by
    intro x hx hkind
    obtain ⟨hne, hread⟩ := literalPiece_pieceText (hpieces x hx) hkind
      (hwf x (hmem x hx))
    exact ⟨hne, fun r hr => orElse_run (hread r hr)⟩
  have hreads : ∀ x ∈ xs, x.isKind .constant = false → (pieceText x).toList.head? = some '\x7b' ∧
      ∀ r, (literalPiece <|> replacement (expr n) (Reader.pieces (expr n) m))
        ((pieceText x).toList ++ r) = some (x.view, r) := by
    intro x hx hkind
    have hformatted := isKind_of_isTemplatePiece (hpieces x hx) hkind
    have hfield := hfields x hx hformatted
    have hlength := length_le_of_mem hx
    rw [pieceText_of_isKind hformatted] at hlength ⊢
    refine ⟨hfield.brace, fun r => orElse_of_none (literalPiece_none ?_) (hfield.reads n m ?_ ?_ r)⟩
    · rw [List.head?_append, hfield.brace]
      rfl
    · have hsize := sizeOf_lt_of_mem_children (hmem x hx)
      omega
    · omega
  rw [hflat]
  exact bind_of_run (many_pieces (orElse_of_none (literalPiece_none hmark) (replacement_none hbrace))
    hmark hmerged htexts hreads) rfl

theorem isExpression_joinedStr (h : IsTemplate (.node .joinedStr as)) :
    IsExpression (.node .joinedStr as) := by
  have hprint (i : Nat) : print false (.node .joinedStr as) .plain i =
      .ok ("f" ++ String.singleton apostrophe ++ writtenAs .pieces (.node .joinedStr as) ++
        String.singleton apostrophe) := by
    exact except_bind_of_ok (h.printed i) rfl
  refine isExpression_enclosed 'f' apostrophe
    (apostrophe :: (writtenAs .pieces (.node .joinedStr as)).toList) hprint (by simp) rfl rfl
    fun n hn rest => ?_
  refine orElse_run (bind_of_run (expect_run ['f', apostrophe] _) ?_)
  refine bind_of_run (a := (writtenAs .pieces (.node .joinedStr as)).toList ++ apostrophe :: rest)
    rfl ?_
  refine bind_of_run (h.reads n _ hn ?_ (apostrophe :: rest) (.inr rfl)) ?_
  · rw [List.length_append, String.length_toList]
    omega
  · exact bind_of_run (expect_run [apostrophe] rest) rfl

theorem composed_joinedStr (h : IsTemplate (.node .joinedStr as)) : Composed (.node .joinedStr as) := by
  refine ⟨fun _ => ⟨fun _ _ => isExpression_joinedStr h, ?_, ?_, ?_, ?_, ?_⟩, ?_, fun _ => h⟩
  all_goals
    intro hkind
    cases hkind

theorem composed_node {k : Kind} (h : Ready k as) (hformatted : k ≠ .formattedValue)
    (hjoined : k ≠ .joinedStr) : Composed (.node k as) := by
  refine ⟨fun _ => legible_node h, fun hkind => ?_, fun hkind => ?_⟩
  · exact absurd (by simpa [isKind, kind?] using hkind) hformatted
  · exact absurd (by simpa [isKind, kind?] using hkind) hjoined

theorem composed_of_throughout (v : Value) (hwf : v.throughout (fun _ => true) Kind.conforms)
    (hformattable : v.throughout (fun _ => true) Kind.isFormattable)
    (hnode : v.isNode) : Composed v := by
  induction v using walkInduction with
  | node k as ih =>
    obtain ⟨hconforms, hwfBelow⟩ := throughout_node.mp hwf
    obtain ⟨hat, hformattableBelow⟩ := throughout_node.mp hformattable
    have hbelow : ∀ u ∈ children k as, Composed u := fun u hu =>
      ih u hu (hwfBelow rfl u hu) (hformattableBelow rfl u hu) (isNode_of_mem_children hu)
    by_cases hjoined : k = .joinedStr
    · subst hjoined
      exact composed_joinedStr (isTemplate_node hconforms hat (hwfBelow rfl) hbelow)
    · by_cases hformatted : k = .formattedValue
      · subst hformatted
        refine ⟨fun hkind => ?_, fun _ => isField_node hconforms hat hbelow, fun hkind => ?_⟩
        · cases hkind
        · cases hkind
      · -- No other node holds a field, so what it holds is legible.
        have hplain : (k.isWritable as && (children k as).all (!·.isKind .formattedValue)) := by
          cases k with
          | joinedStr => exact absurd rfl hjoined
          | formattedValue => exact absurd rfl hformatted
          | _ => exact hat
        rw [Bool.and_eq_true, List.all_eq_true] at hplain
        have hready : Ready k as :=
          ⟨hwf, hplain.1, fun u hu => (hbelow u hu).legible (by simpa using hplain.2 u hu)⟩
        exact composed_node hready hformatted hjoined
  | rest v hn => rw [hn] at hnode; cases hnode

theorem isExpression_of_isFormattedExpression {v : Value} (h : v.isFormattedExpression) :
    IsExpression v := by
  simp only [isFormattedExpression, wellFormed, Bool.and_eq_true, Bool.not_eq_true'] at h
  obtain ⟨⟨⟨⟨⟨hnode, hwf⟩, hexpr⟩, hstarred⟩, hfield⟩, hformattable⟩ := h
  exact ((composed_of_throughout v hwf hformattable hnode).legible hfield).expression hexpr hstarred

end Source

namespace Value

open Source

/-- Printing expressions with formatted strings and several dimensions loses nothing but contexts
and locations. -/
theorem view_eq_of_formatted_source_eq {v w : Value} (hv : v.isFormattedExpression = true)
    (hw : w.isFormattedExpression = true) :
    ∃ s t, v.source false = .ok s ∧ w.source false = .ok t ∧ (s = t → v.view = w.view) := by
  have hexprV := isExpression_of_isFormattedExpression hv
  have hexprW := isExpression_of_isFormattedExpression hw
  exact ⟨_, _, hexprV.source_eq, hexprW.source_eq, hexprV.view_eq hexprW⟩

/-- The subscript `a[f'it\'s \ {x!r:>{w}}', 1:]` in one context throughout. -/
def formattedSubscript (ctx : Kind) : Value :=
  let name (s : String) := node .name [("id", str s), ("ctx", node ctx [])]
  let text (s : String) := node .constant [("value", str s), ("kind", none)]
  let width := node .formattedValue [("value", name "w"), ("conversion", int (-1)), ("format_spec", none)]
  let field := node .formattedValue [("value", name "x"), ("conversion", int 114),
    ("format_spec", node .joinedStr [("values", list [text ">", width])])]
  node .subscript [("value", name "a"), ("slice", node .extSlice [("dims", list
    [node .index [("value", node .joinedStr [("values", list [text "it's \\ ", field])])],
      node .slice [("lower", node .constant [("value", int 1), ("kind", none)]), ("upper", none),
        ("step", none)]])]), ("ctx", node ctx [])]

theorem view_eq_of_formatted_source_eq_subscript :
    (formattedSubscript .load).isFormattedExpression = true ∧
      (formattedSubscript .store).isFormattedExpression = true ∧
      ∃ s t, (formattedSubscript .load).source false = .ok s ∧
        (formattedSubscript .store).source false = .ok t ∧
        (s = t → (formattedSubscript .load).view = (formattedSubscript .store).view) :=
  ⟨by decide +kernel, by decide +kernel,
    view_eq_of_formatted_source_eq (by decide +kernel) (by decide +kernel)⟩

/-- Two well-formed trees that differ are written alike. -/
def Confused (v w : Value) : Prop :=
  v.wellFormed = true ∧ w.wellFormed = true ∧ v.source false = w.source false ∧ v.view ≠ w.view

def textOnly (s : String) : Value :=
  node .joinedStr [("values", list [node .constant [("value", str s), ("kind", none)]])]

private def loadedName (s : String) : Value := node .name [("id", str s), ("ctx", node .load [])]

def fieldOnly : Value :=
  node .joinedStr [("values", list [node .formattedValue [("value", loadedName "x"),
    ("conversion", int (-1)), ("format_spec", none)]])]

/-- The slice `i:j`, with or without a comma after it, in the brackets of `a`. -/
def slicedName (comma : Bool) : Value :=
  let range := node .slice [("lower", loadedName "i"), ("upper", loadedName "j"), ("step", none)]
  node .subscript [("value", loadedName "a"),
    ("slice", if comma then node .extSlice [("dims", list [range])] else range), ("ctx", node .load [])]

/-- Braces in text look like a field, a backslash in front of an `n` looks like the end of a line, and
the comma after a single dimension is left out. -/
theorem source_confused :
    Confused (textOnly "\x7bx\x7d") fieldOnly ∧ Confused (textOnly "\\n") (textOnly "\n") ∧
      Confused (slicedName true) (slicedName false) := by
  refine ⟨⟨by decide +kernel, by decide +kernel, by cbv, ?_⟩,
    ⟨by decide +kernel, by decide +kernel, by cbv, ?_⟩,
    ⟨by decide +kernel, by decide +kernel, by cbv, ?_⟩⟩
  · intro h
    cases h
  · have hview (s : String) : (textOnly s).view = textOnly s := rfl
    intro h
    rw [hview, hview] at h
    simp [textOnly] at h
  · intro h
    cases h

end Value

end TreeMacros
