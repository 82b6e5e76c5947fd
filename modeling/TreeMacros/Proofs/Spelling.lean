import TreeMacros.Proofs.Displays

/-!
# Reading whole expressions

Words, constants and what is in brackets start an expression; attributes, subscripts and calls
follow. An expression is read from its parts.
-/

namespace TreeMacros

variable {w : String}

namespace Reader

variable {n : Nat} {c : Char} {cs text rest : List Char} {v : Value}

/-! ## Words and constants -/

section

variable {e : Reader Value}

theorem atom_paren (e : Reader Value) (cs : List Char) : atom e ('(' :: cs) = parenthesis e cs := rfl

theorem atom_bracket (e : Reader Value) (cs : List Char) : atom e ('[' :: cs) = listDisplay e cs := rfl

theorem atom_brace (e : Reader Value) (cs : List Char) :
    atom e ('\x7b' :: cs) = braceDisplay e cs := rfl

theorem atom_ellipsis (e : Reader Value) (rest : List Char) :
    atom e ("...".toList ++ rest) = some (constant .ellipsis .none, rest) := by
  rw [show "...".toList ++ rest = '.' :: (['.', '.'] ++ rest) from rfl, atom, if_neg (by decide),
    if_neg (by decide), if_neg (by decide), if_pos rfl]
  exact bind_of_run (expect_run ['.', '.'] rest) rfl

theorem isQuote_iff : isQuote c ↔ c = Text.apostrophe ∨ c = '"' := by
  simp [isQuote]

theorem atom_of_isQuote (hc : isQuote c) {s : List Char}
    (h : quoted (c :: cs) = some (s, rest)) :
    atom e (c :: cs) = some (constant (.str (String.ofList s)) .none, rest) := by
  have hother : c ≠ '(' ∧ c ≠ '[' ∧ c ≠ '\x7b' ∧ c ≠ '.' := by
    rcases isQuote_iff.mp hc with rfl | rfl <;> decide
  rw [atom, if_neg hother.1, if_neg hother.2.1, if_neg hother.2.2.1, if_neg hother.2.2.2, if_pos hc, h]
  rfl

theorem exists_quoted (s : String) :
    ∃ q cs, (Text.quoted s).toList = q :: (cs ++ [q]) ∧ isQuote q := by
  generalize hq : Text.quoteFor (s.toList.contains ·) = q
  refine ⟨q, s.toList.flatMap fun c => (Text.escapeChar q c).toList, ?_, ?_⟩
  · simp only [Text.quoted, hq]
    simp [List.flatMap_map]
  · rw [← hq]
    exact isQuote_quoteFor _

theorem atom_str (s : String) (rest : List Char) :
    atom e ((Text.quoted s).toList ++ rest) = some (constant (.str s) .none, rest) := by
  obtain ⟨q, cs, hcs, hq⟩ := exists_quoted s
  have hread := quoted_run s rest
  rw [hcs] at hread ⊢
  rw [List.cons_append] at hread ⊢
  rw [atom_of_isQuote hq hread, String.ofList_toList]

theorem isQuote_of_isWordChar (hc : isWordChar c) : isQuote c = false := by
  rw [Bool.eq_false_iff]
  intro hq
  rcases isQuote_iff.mp hq with rfl | rfl <;> exact absurd hc (by decide)

theorem formatted_none (h : c ≠ 'f' ∨ cs.head?.any isQuote = false) : formatted e (c :: cs) = none := by
  have hexpect : expect ['f', Text.apostrophe] (c :: cs) = none := by
    rcases h with h | h
    · simp [expect, List.isPrefixOf?, h.symm]
    · cases cs with
      | nil => simp [expect, List.isPrefixOf?]
      | cons d cs =>
        have hd : Text.apostrophe ≠ d := by
          rintro rfl
          cases h
        simp [expect, List.isPrefixOf?, hd]
  exact bind_none hexpect

theorem atom_of_isWordChar (hc : isWordChar c) (hdigit : c.isDigit = false)
    (hf : c ≠ 'f' ∨ cs.head?.any isQuote = false) : atom e (c :: cs) = wordAtom (c :: cs) := by
  have hother : c ≠ '(' ∧ c ≠ '[' ∧ c ≠ '\x7b' ∧ c ≠ '.' := by
    refine ⟨?_, ?_, ?_, ?_⟩
    all_goals
      rintro rfl
      exact absurd hc (by decide)
  rw [atom, if_neg hother.1, if_neg hother.2.1, if_neg hother.2.2.1, if_neg hother.2.2.2,
    isQuote_of_isWordChar hc, hdigit]
  exact orElse_none (formatted_none hf)

theorem atom_unicode (s : String) (rest : List Char) :
    atom e ('u' :: ((Text.quoted s).toList ++ rest)) = some (constant (.str s) (.str "u"), rest) := by
  obtain ⟨q, cs, hcs, hq⟩ := exists_quoted s
  have hread := quoted_run s rest
  have hword : isWordChar q = false := by
    rcases isQuote_iff.mp hq with rfl | rfl <;> decide
  rw [hcs] at hread ⊢
  rw [List.cons_append] at hread ⊢
  obtain ⟨htake, hdrop⟩ := span_word (show ∀ c ∈ ['u'], isWordChar c from List.all_eq_true.mp rfl)
    (show (q :: (cs ++ [q] ++ rest)).head?.any isWordChar = false from hword)
  rw [List.singleton_append] at htake hdrop
  rw [atom_of_isWordChar (by decide) (by decide) (.inl (by decide)), wordAtom, htake, hdrop]
  simp only [List.head?_cons, Option.any_some, hq, ↓reduceIte, hread]
  simp

theorem atom_bytes (bs : List UInt8) (rest : List Char) :
    atom e ((Text.quotedBytes bs).toList ++ rest) = some (constant (.bytes bs) .none, rest) := by
  obtain ⟨text, htext, hread⟩ := quotedBytes_run bs
  have hstart : ∃ q cs, text = q :: cs ∧ isQuote q := by
    have hread := hread []
    rw [List.append_nil] at hread
    cases text with
    | nil => cases hread
    | cons q cs =>
      refine ⟨q, cs, rfl, ?_⟩
      cases hq : isQuote q with
      | true => rfl
      | false => simp [quoted, hq] at hread
  obtain ⟨q, cs, rfl, hq⟩ := hstart
  have hword : isWordChar q = false := by
    rcases isQuote_iff.mp hq with rfl | rfl <;> decide
  have hbytes : (bs.map fun b => Char.ofNat b.toNat).map (fun c => UInt8.ofNat c.toNat) = bs := by
    rw [List.map_map]
    conv_rhs => rw [← List.map_id bs]
    apply List.map_congr_left
    intro b _
    simp [toNat_ofNat_byte]
  have hrest := hread rest
  rw [List.cons_append] at hrest
  obtain ⟨htake, hdrop⟩ := span_word (show ∀ c ∈ ['b'], isWordChar c from List.all_eq_true.mp rfl)
    (show (q :: (cs ++ rest)).head?.any isWordChar = false from hword)
  rw [List.singleton_append] at htake hdrop
  rw [htext, List.cons_append, List.cons_append, atom_of_isWordChar (by decide) (by decide) (.inl (by decide)), wordAtom,
    htake, hdrop]
  simp only [List.head?_cons, Option.any_some, hq, ↓reduceIte, hrest]
  simp [hbytes]

theorem atom_number (hv : isNumber v) (hrest : Border rest) :
    atom e ((Source.literal v).toList ++ rest) = some (constant v .none, rest) := by
  obtain ⟨d, ds, htext, hd, hnumeral, hvalue⟩ := exists_literal_of_isNumber hv
  have hnumber := number_run hnumeral hrest.number
  have hother : d ≠ '(' ∧ d ≠ '[' ∧ d ≠ '\x7b' ∧ d ≠ '.' ∧ isQuote d = false := by
    refine ⟨?_, ?_, ?_, ?_, ?_⟩
    iterate 4
      rintro rfl
      exact absurd hd (by decide)
    rw [Bool.eq_false_iff]
    intro hq
    rcases isQuote_iff.mp hq with rfl | rfl <;> exact absurd hd (by decide)
  rw [htext]
  rw [List.cons_append] at hnumber ⊢
  rw [atom, if_neg hother.1, if_neg hother.2.1, if_neg hother.2.2.1, if_neg hother.2.2.2.1,
    hother.2.2.2.2, hd, hnumber, hvalue]
  rfl

theorem atom_word (hw : w ∈ ["True", "False", "None"]) (hrest : Border rest) :
    atom e (w.toList ++ rest) = some (constant
      (if w = "True" then .bool true else if w = "False" then .bool false else .none) .none, rest) := by
  have hword : ∀ w ∈ ["True", "False", "None"], w.toList.all isWordChar := by decide
  obtain ⟨htake, hdrop⟩ := span_word (List.all_eq_true.mp (hword w hw)) hrest.word
  have hatom : atom e (w.toList ++ rest) = wordAtom (w.toList ++ rest) := by
    simp only [List.mem_cons, List.not_mem_nil, or_false] at hw
    rcases hw with rfl | rfl | rfl <;> rfl
  rw [hatom, wordAtom, htake, hdrop]
  simp only [hrest.quote, Bool.false_eq_true, ↓reduceIte]
  simp only [List.mem_cons, List.not_mem_nil, or_false] at hw
  rcases hw with rfl | rfl | rfl <;> rfl

theorem atom_name (hw : isIdentifier w) (hrest : Border rest) :
    atom e (w.toList ++ rest) = some (.node .name [("id", .str w)], rest) := by
  obtain ⟨c, cs, hcs, hdigit, hall, hkeyword⟩ := exists_of_isIdentifier hw
  obtain ⟨htake, hdrop⟩ := span_word hall hrest.word
  have hatom : atom e (w.toList ++ rest) = wordAtom (w.toList ++ rest) := by
    rw [hcs] at hall ⊢
    refine atom_of_isWordChar (hall c List.mem_cons_self) hdigit (.inr ?_)
    cases cs with
    | nil => exact hrest.quote
    | cons d ds => exact isQuote_of_isWordChar (hall d (by simp))
  have hne (s : String) (hs : s ∈ keywords) : w.toList ≠ s.toList := by
    intro e
    exact hkeyword (String.toList_inj.mp e ▸ hs)
  rw [hatom, wordAtom, htake, hdrop]
  simp only [hrest.quote, Bool.false_eq_true, ↓reduceIte, if_neg (hne "True" (by decide)),
    if_neg (hne "False" (by decide)), if_neg (hne "None" (by decide)), String.ofList_toList, hw]

end

/-! ## What follows an expression -/

/-- The part of a call or a subscript ends here, before `close`. -/
def EndsPart (close : Char) (rest : List Char) : Prop :=
  rest.head? = some ',' ∨ rest.head? = some close

theorem EndsPart.endsHere {close : Char} (hclose : close = ')' ∨ close = ']')
    (h : EndsPart close rest) : endsHere rest := by
  cases rest with
  | nil => rfl
  | cons c rest =>
    have hc : c = ',' ∨ c = close := by simpa [EndsPart] using h
    rcases hc with rfl | rfl
    · rfl
    · rcases hclose with rfl | rfl <;> rfl

/-- The text is that of a part, wherever the part may end. -/
def ShowsPart {α : Type} (p : Reader α) (close : Char) (text : List Char) (a : α) : Prop :=
  ∀ rest, EndsPart close rest → p (text ++ rest) = some (a, rest)

section

variable {α : Type} {p : Reader α} {ps : List (List Char × α)} {q : List Char × α} {close : Char}

theorem parts_run (h : ∀ q ∈ ps, ShowsPart p close q.1 q.2) (hclose : close ≠ ',')
    (rest : List Char) :
    EndsPart close ((ps.flatMap fun q => ',' :: ' ' :: q.1) ++ close :: rest) ∧
      following p ((ps.flatMap fun q => ',' :: ' ' :: q.1) ++ close :: rest) =
        some (ps.map (·.2), close :: rest) := by
  have hnone : expect [',', ' '] (close :: rest) = none := by
    simp [expect, List.isPrefixOf?, hclose.symm]
  have hmany := many_run (do expect [',', ' ']; p) (EndsPart close)
    (ps.map fun q => (',' :: ' ' :: q.1, q.2)) (bind_none hnone) (.inr rfl)
    fun piece hpiece => by
      obtain ⟨q, hq, rfl⟩ := List.mem_map.mp hpiece
      refine ⟨by simp, fun r hr => ⟨.inl rfl, ?_⟩⟩
      exact bind_of_run rfl (h q hq r hr)
  rw [List.flatMap_map, List.map_map] at hmany
  exact hmany

end

/-! ### Calls -/

theorem argument_positional (h : Shows (element (expr n)) text v) :
    ShowsPart (argument (expr n)) ')' text (.inl v) := by
  intro rest hrest
  refine orElse_run (bind_of_run (h rest (hrest.endsHere (.inl rfl))) (bind_of_run (a := rest) rfl ?_))
  have hhead : (decide (rest.head? = some ',') || decide (rest.head? = some ')')) = true := by
    simpa [EndsPart] using hrest
  rw [if_pos hhead]
  rfl

theorem argument_double (h : Shows (expr n) text v) :
    ShowsPart (argument (expr n)) ')' ('*' :: '*' :: text)
      (.inr (.node .keyword [("arg", .none), ("value", v)])) := by
  intro rest hrest
  have hnone (cs : List Char) : expr n ('*' :: cs) = none := expr_foreign n (by decide) cs
  have helement : element (expr n) ('*' :: '*' :: (text ++ rest)) = none :=
    orElse_of_none (bind_of_run (expect_run ['*'] _) (bind_none (hnone _))) (hnone _)
  refine orElse_of_none (bind_none helement) (orElse_run ?_)
  exact bind_of_run (expect_run ['*', '*'] _)
    (bind_of_run (h rest (hrest.endsHere (.inl rfl))) rfl)

theorem argument_keyword (hw : isIdentifier w) (h : Shows (expr n) text v) :
    ShowsPart (argument (expr n)) ')' (w.toList ++ '=' :: text)
      (.inr (.node .keyword [("arg", .str w), ("value", v)])) := by
  intro rest hrest
  obtain ⟨c, cs, hcs, hdigit, hall, -⟩ := exists_of_isIdentifier hw
  have hborder : Border ('=' :: (text ++ rest)) := border_cons (by decide) (by simp)
  have hstar (more r : List Char) : expect ('*' :: more) (w.toList ++ r) = none := by
    have hc : '*' ≠ c := by
      rintro rfl
      exact absurd (hall '*' (by rw [hcs]; exact List.mem_cons_self)) (by decide)
    rw [hcs]
    simp [expect, List.isPrefixOf?, hc]
  rw [List.append_assoc, List.cons_append]
  refine orElse_of_none ?_ (orElse_of_none (bind_none (hstar _ _)) ?_)
  · -- A name would be read, but no positional argument ends before an equals sign.
    cases n with
    | zero => exact bind_none (orElse_of_none (bind_none (hstar _ _)) rfl)
    | succ n =>
      have hname : expr (n + 1) (w.toList ++ '=' :: (text ++ rest)) =
          some (.node .name [("id", .str w)], '=' :: (text ++ rest)) := by
        refine bind_of_run (atom_name hw hborder) ?_
        exact bind_of_run (many_stop rfl) rfl
      exact bind_of_run (orElse_of_none (bind_none (hstar _ _)) hname) rfl
  · refine bind_of_run (word_run hall hborder.word) (bind_of_run (expect_run ['='] _) ?_)
    exact bind_of_run (h rest (hrest.endsHere (.inl rfl))) rfl

theorem suffix_call {qs : List (List Char × (Value ⊕ Value))}
    (h : ∀ q ∈ qs, ShowsPart (argument (expr n)) ')' q.1 q.2) :
    suffix (expr n) ('(' :: ([',', ' '].intercalate (qs.map (·.1)) ++ ')' :: rest)) =
      some (callOf (qs.map (·.2)), rest) := by
  rw [suffix, if_neg (by decide), if_neg (by decide), if_pos rfl]
  refine bind_of_run (a := qs.map (·.2)) (r := rest) ?_ rfl
  cases qs with
  | nil => exact orElse_run (bind_of_run (expect_run [')'] rest) rfl)
  | cons q qs =>
    obtain ⟨hends, hmore⟩ := parts_run
      (fun q' hq' => h q' (List.mem_cons_of_mem _ hq')) (by decide) rest
    have hfirst := h q List.mem_cons_self _ hends
    have hparen : ∀ cs, argument (expr n) (')' :: cs) = none := by
      intro cs
      refine orElse_of_none (bind_none (element_foreign n (by decide) (by decide) cs)) ?_
      exact orElse_of_none (bind_none rfl) rfl
    rw [List.map_cons, intercalate_commas, List.flatMap_map, List.append_assoc]
    refine orElse_of_none (bind_none (expect_none hfirst hparen [])) (bind_of_run hfirst ?_)
    exact bind_of_run hmore (bind_of_run (expect_run [')'] rest) rfl)

/-! ### Subscripts -/

def textOf (o : Option (List Char × Value)) : List Char := o.elim [] (·.1)

def valueOf (o : Option (List Char × Value)) : Value := o.elim .none (·.2)

theorem optional_run {o : Option (List Char × Value)} (h : ∀ q ∈ o, Shows (expr n) q.1 q.2)
    (hrest : endsHere (c :: rest)) (hc : isForeign c) :
    optional (expr n) (textOf o ++ c :: rest) = some (valueOf o, c :: rest) := by
  cases o with
  | none => exact orElse_of_none (expr_foreign n hc rest) rfl
  | some q => exact orElse_run (h q rfl _ hrest)

theorem dimension_index (h : Shows (expr n) text v) (hv : v.isNone = false) :
    ShowsPart (dimension (expr n)) ']' text (.node .index [("value", v)]) := by
  intro rest hrest
  refine bind_of_run (orElse_run (h rest (hrest.endsHere (.inr rfl)))) ?_
  have hcolon : expect [':'] rest = none := by
    cases rest with
    | nil => rfl
    | cons c rest =>
      have hc : c = ',' ∨ c = ']' := by simpa [EndsPart] using hrest
      rcases hc with rfl | rfl <;> rfl
  refine orElse_of_none (bind_none hcolon) ?_
  rw [hv]
  rfl

theorem dimension_slice {lower upper step : Option (List Char × Value)}
    (hl : ∀ q ∈ lower, Shows (expr n) q.1 q.2) (hu : ∀ q ∈ upper, Shows (expr n) q.1 q.2)
    (hs : ∀ q ∈ step, Shows (expr n) q.1 q.2) :
    ShowsPart (dimension (expr n)) ']'
      (textOf lower ++ ':' :: (textOf upper ++ step.elim [] fun q => ':' :: q.1))
      (.node .slice [("lower", valueOf lower), ("upper", valueOf upper), ("step", valueOf step)]) := by
  intro rest hrest
  have hends := hrest.endsHere (.inr rfl)
  rw [List.append_assoc, List.cons_append, List.append_assoc]
  refine bind_of_run (optional_run hl rfl (by decide)) (orElse_run ?_)
  refine bind_of_run (expect_run [':'] _) ?_
  cases step with
  | none =>
    obtain ⟨c, cs, rfl⟩ : ∃ c cs, rest = c :: cs := by
      cases rest with
      | nil => simp [EndsPart] at hrest
      | cons c cs => exact ⟨c, cs, rfl⟩
    have hc : c = ',' ∨ c = ']' := by simpa [EndsPart] using hrest
    have hforeign : isForeign c := by rcases hc with rfl | rfl <;> decide
    have hcolon : expect [':'] (c :: cs) = none := by rcases hc with rfl | rfl <;> rfl
    refine bind_of_run (optional_run hu hends hforeign) ?_
    exact bind_of_run (orElse_of_none (bind_none hcolon) rfl) rfl
  | some q =>
    refine bind_of_run (optional_run hu rfl (by decide)) ?_
    exact bind_of_run (orElse_run (bind_of_run (expect_run [':'] _) (hs q rfl rest hends))) rfl

theorem suffix_subscript (h : ShowsPart (dimension (expr n)) ']' text v) :
    suffix (expr n) ('[' :: (text ++ ']' :: rest)) =
      some (fun x => .node .subscript [("value", x), ("slice", v)], rest) := by
  rw [suffix, if_neg (by decide), if_neg (by decide), if_neg (by decide), if_pos rfl]
  refine bind_of_run (a := v) (r := rest) ?_ rfl
  refine bind_of_run (h _ (.inr rfl)) (bind_of_run (many_stop rfl) ?_)
  exact bind_of_run (expect_run [']'] rest) rfl

private theorem exists_of_two_le_length {α : Type} {xs : List α} (h : 2 ≤ xs.length) :
    ∃ x y ys, xs = x :: y :: ys := by
  cases xs with
  | nil => cases h
  | cons x xs =>
    cases xs with
    | nil => simp at h
    | cons y ys => exact ⟨x, y, ys, rfl⟩

theorem suffix_extSlice {qs : List (List Char × Value)}
    (h : ∀ q ∈ qs, ShowsPart (dimension (expr n)) ']' q.1 q.2) (hlength : 2 ≤ qs.length) :
    suffix (expr n) ('[' :: ([',', ' '].intercalate (qs.map (·.1)) ++ ']' :: rest)) =
      some (fun x => .node .subscript [("value", x),
        ("slice", .node .extSlice [("dims", .list (qs.map (·.2)))])], rest) := by
  rw [suffix, if_neg (by decide), if_neg (by decide), if_neg (by decide), if_pos rfl]
  obtain ⟨q, q', qs, rfl⟩ := exists_of_two_le_length hlength
  obtain ⟨hends, hmore⟩ := parts_run
    (fun p hp => h p (List.mem_cons_of_mem q hp)) (by decide) rest
  rw [List.map_cons, intercalate_commas, List.flatMap_map, List.append_assoc]
  refine bind_of_run (a := .node .extSlice [("dims", .list ((q :: q' :: qs).map (·.2)))])
    (r := rest) ?_ rfl
  refine bind_of_run (h q List.mem_cons_self _ hends) (bind_of_run hmore ?_)
  exact bind_of_run (expect_run [']'] rest) rfl

/-! ### Attributes -/

theorem suffix_attribute (hw : isIdentifier w) (hrest : Border rest) :
    suffix (expr n) ('.' :: (w.toList ++ rest)) =
        some (fun x => .node .attributeRef [("value", x), ("attr", .str w)], rest) ∧
      suffix (expr n) (' ' :: '.' :: (w.toList ++ rest)) =
        some (fun x => .node .attributeRef [("value", x), ("attr", .str w)], rest) := by
  obtain ⟨-, -, -, -, hall, -⟩ := exists_of_isIdentifier hw
  have hdotted : dotted (w.toList ++ rest) =
      some (fun x => .node .attributeRef [("value", x), ("attr", .str w)], rest) :=
    bind_of_run (word_run hall hrest.word) rfl
  constructor
  · rw [suffix, if_pos rfl]
    exact hdotted
  · rw [suffix, if_neg (by decide), if_pos rfl]
    exact bind_of_run (expect_run ['.'] _) hdotted

/-! ## Expressions -/

/-- The text is that of an expression: what stands at its beginning, and what follows. -/
def Spells (n : Nat) (text : List Char) (v : Value) : Prop :=
  ∃ (first : List Char) (x : Value) (ps : List (List Char × (Value → Value))),
    text = first ++ ps.flatMap (·.1) ∧ v = (ps.map (·.2)).foldl (fun v f => f v) x ∧
      (∀ rest, Border rest → atom (expr n) (first ++ rest) = some (x, rest)) ∧
      ∀ p ∈ ps, p.1 ≠ [] ∧ ∀ rest, Border rest →
        Border (p.1 ++ rest) ∧ suffix (expr n) (p.1 ++ rest) = some (p.2, rest)

theorem spells_atom (h : ∀ rest, Border rest → atom (expr n) (text ++ rest) = some (v, rest)) :
    Spells n text v :=
  ⟨text, v, [], by simp, rfl, h, by simp⟩

theorem Spells.append (h : Spells n text v) {more : List Char} {f : Value → Value} (hne : more ≠ [])
    (hmore : ∀ rest, Border rest →
      Border (more ++ rest) ∧ suffix (expr n) (more ++ rest) = some (f, rest)) :
    Spells n (text ++ more) (f v) := by
  obtain ⟨first, x, ps, rfl, rfl, hfirst, hps⟩ := h
  refine ⟨first, x, ps ++ [(more, f)], by simp, by simp, hfirst, fun p hp => ?_⟩
  rcases List.mem_append.mp hp with hp | hp
  · exact hps p hp
  · obtain rfl := List.mem_singleton.mp hp
    exact ⟨hne, hmore⟩

theorem Spells.shows (h : Spells n text v) : Shows (expr (n + 1)) text v := by
  obtain ⟨first, x, ps, rfl, rfl, hfirst, hps⟩ := h
  intro rest hrest
  have hmany := many_run (suffix (expr n)) Border ps (suffix_of_endsHere _ hrest)
    (border_of_endsHere hrest) hps
  rw [List.append_assoc]
  refine bind_of_run (hfirst _ hmany.1) ?_
  exact bind_of_run hmany.2 rfl

end Reader

end TreeMacros
