import TreeMacros.Proofs.Reading

/-!
# Reading displays and operations

Lists, sets, dictionaries and comprehensions are read from what stands between their brackets, and
tuples and operations from what stands between their parentheses.
-/

namespace TreeMacros

variable {key value : List Char} {k v : Value} {op : Kind} {sign : String}

namespace Reader

variable {n : Nat} {c : Char} {cs text rest : List Char} {v : Value}

/-! ## Displays -/

theorem intercalate_cons (sep t : List Char) (ts : List (List Char)) :
    sep.intercalate (t :: ts) = t ++ ts.flatMap (sep ++ ·) := by
  induction ts generalizing t with
  | nil => simp
  | cons u ts ih => simp [List.intercalate_cons_cons, ih]

theorem intercalate_commas (t : List Char) (ts : List (List Char)) :
    [',', ' '].intercalate (t :: ts) = t ++ ts.flatMap fun u => ',' :: ' ' :: u :=
  intercalate_cons _ t ts

section

variable {first : List Char} {x : Value} {qs gs : List (List Char × Value)}

theorem head?_following (qs : List (List Char × Value)) {c : Char} (hc : c ≠ ' ') (hrest : rest.head? = some c) :
    ((qs.flatMap fun q => ',' :: ' ' :: q.1) ++ rest).head? ≠ some ' ' ∧
      (endsHere rest → endsHere ((qs.flatMap fun q => ',' :: ' ' :: q.1) ++ rest)) := by
  cases qs with
  | nil =>
    rw [List.flatMap_nil, List.nil_append, hrest]
    exact ⟨by simpa using hc, id⟩
  | cons q qs =>
    refine ⟨?_, fun _ => rfl⟩
    rw [List.flatMap_cons]
    simp

theorem listDisplay_run (h : ∀ q ∈ qs, Shows (element (expr n)) q.1 q.2) :
    listDisplay (expr n) ([',', ' '].intercalate (qs.map (·.1)) ++ ']' :: rest) =
      some (.node .list [("elts", .list (qs.map (·.2)))], rest) := by
  cases qs with
  | nil => exact orElse_run (bind_of_run (expect_run [']'] rest) rfl)
  | cons q qs =>
    have hq := h q List.mem_cons_self
    have hmore := following_run qs (fun q' hq' => h q' (List.mem_cons_of_mem _ hq'))
      (']' :: rest) rfl (by simp)
    obtain ⟨hblank, hends⟩ := head?_following qs (c := ']') (by decide)
      (show (']' :: rest).head? = some ']' from rfl)
    have hfirst := hq _ (hends rfl)
    rw [List.map_cons, intercalate_commas, List.flatMap_map, List.append_assoc]
    refine orElse_of_none (bind_none (expect_none hfirst (element_foreign n (by decide) (by decide)) []))
      (bind_of_run hfirst ?_)
    refine orElse_of_none (bind_none (generators_none _ hblank)) (bind_of_run hmore ?_)
    exact bind_of_run (expect_run [']'] rest) rfl

theorem listDisplay_comprehension (hx : Shows (expr n) first x) (hne : gs ≠ [])
    (hgs : ∀ g ∈ gs, ShowsClause n g.1 g.2) :
    listDisplay (expr n) (first ++ (gs.flatMap (·.1) ++ ']' :: rest)) =
      some (.node .listComp [("elt", x), ("generators", .list (gs.map (·.2)))], rest) := by
  obtain ⟨hends, hread⟩ := generators_run hne hgs (']' :: rest) rfl (by simp)
  have hfirst := element_of_shows hx _ hends.1
  refine orElse_of_none (bind_none (expect_none hfirst (element_foreign n (by decide) (by decide)) []))
    (bind_of_run hfirst ?_)
  exact orElse_run (bind_of_run hread (bind_of_run (expect_run [']'] rest) rfl))

theorem braceDisplay_empty : braceDisplay (expr n) ('\x7d' :: rest) =
    some (.node .dict [("keys", .list []), ("values", .list [])], rest) :=
  orElse_run (bind_of_run (expect_run ['\x7d'] rest) rfl)

theorem braceDisplay_set (h : ∀ q ∈ qs, Shows (element (expr n)) q.1 q.2) (hne : qs ≠ []) :
    braceDisplay (expr n) ([',', ' '].intercalate (qs.map (·.1)) ++ '\x7d' :: rest) =
      some (.node .set [("elts", .list (qs.map (·.2)))], rest) := by
  cases qs with
  | nil => exact absurd rfl hne
  | cons q qs =>
    have hq := h q List.mem_cons_self
    have hmore := following_run qs (fun q' hq' => h q' (List.mem_cons_of_mem _ hq'))
      ('\x7d' :: rest) rfl (by simp)
    obtain ⟨hblank, hends⟩ := head?_following qs (c := '\x7d') (by decide)
      (show ('\x7d' :: rest).head? = some '\x7d' from rfl)
    have hfirst := hq _ (hends rfl)
    have hcolon : expect [':', ' '] ((qs.flatMap fun q => ',' :: ' ' :: q.1) ++ '\x7d' :: rest) =
        none := by
      cases qs <;> rfl
    rw [List.map_cons, intercalate_commas, List.flatMap_map, List.append_assoc]
    refine orElse_of_none (bind_none (expect_none hfirst (element_foreign n (by decide) (by decide)) []))
      (bind_of_run hfirst ?_)
    refine orElse_of_none (bind_none hcolon) ?_
    refine orElse_of_none (bind_none (generators_none _ hblank)) (bind_of_run hmore ?_)
    exact bind_of_run (expect_run ['\x7d'] rest) rfl

theorem braceDisplay_setComp (hx : Shows (expr n) first x) (hne : gs ≠ [])
    (hgs : ∀ g ∈ gs, ShowsClause n g.1 g.2) :
    braceDisplay (expr n) (first ++ (gs.flatMap (·.1) ++ '\x7d' :: rest)) =
      some (.node .setComp [("elt", x), ("generators", .list (gs.map (·.2)))], rest) := by
  obtain ⟨hends, hread⟩ := generators_run hne hgs ('\x7d' :: rest) rfl (by simp)
  have hfirst := element_of_shows hx _ hends.1
  have hcolon : expect [':', ' '] (gs.flatMap (·.1) ++ '\x7d' :: rest) = none := by
    cases gs with
    | nil => exact absurd rfl hne
    | cons g gs =>
      obtain ⟨⟨more, hmore | hmore⟩, -⟩ := hgs g List.mem_cons_self <;>
      · rw [List.flatMap_cons, hmore]
        rfl
  refine orElse_of_none (bind_none (expect_none hfirst (element_foreign n (by decide) (by decide)) []))
    (bind_of_run hfirst ?_)
  refine orElse_of_none (bind_none hcolon) ?_
  exact orElse_run (bind_of_run hread (bind_of_run (expect_run ['\x7d'] rest) rfl))

theorem braceDisplay_entry {r : Option (Value × List Char)} (hk : Shows (expr n) key k)
    (hv : Shows (expr n) value v) (hrest : endsHere rest)
    (h : dictRest (expr n) k v rest = r) (hr : r.isSome) :
    braceDisplay (expr n) (key ++ ':' :: ' ' :: (value ++ rest)) = r := by
  have hfirst := element_of_shows hk (':' :: ' ' :: (value ++ rest)) rfl
  refine orElse_of_none (bind_none (expect_none hfirst (element_foreign n (by decide) (by decide)) []))
    (bind_of_run hfirst ?_)
  obtain ⟨out, rfl⟩ := Option.isSome_iff_exists.mp hr
  obtain ⟨a, as⟩ := out
  exact orElse_run (bind_of_run (expect_run [':', ' '] _) (bind_of_run (hv _ hrest) h))

theorem entry_run (hk : Shows (expr n) key k) (hv : Shows (expr n) value v) :
    Shows (entry (expr n)) (key ++ ':' :: ' ' :: value) (k, v) := by
  intro rest hrest
  rw [List.append_assoc]
  refine bind_of_run (hk _ rfl) (bind_of_run (expect_run [':', ' '] _) ?_)
  exact bind_of_run (hv _ hrest) rfl

/-- Texts of keys and values, with what they stand for. -/
abbrev Entry := (List Char × Value) × (List Char × Value)

theorem braceDisplay_dict {ds : List Entry}
    (h : ∀ d ∈ ds, Shows (expr n) d.1.1 d.1.2 ∧ Shows (expr n) d.2.1 d.2.2) :
    braceDisplay (expr n)
        ([',', ' '].intercalate (ds.map fun d => d.1.1 ++ ':' :: ' ' :: d.2.1) ++ '\x7d' :: rest) =
      some (.node .dict [("keys", .list (ds.map (·.1.2))), ("values", .list (ds.map (·.2.2)))],
        rest) := by
  cases ds with
  | nil => exact braceDisplay_empty
  | cons d ds =>
    obtain ⟨hk, hv⟩ := h d List.mem_cons_self
    have hmore := following_run (p := entry (expr n))
      (ds.map fun d => (d.1.1 ++ ':' :: ' ' :: d.2.1, (d.1.2, d.2.2))) (fun q hq => by
        obtain ⟨d', hd', rfl⟩ := List.mem_map.mp hq
        obtain ⟨hk, hv⟩ := h d' (List.mem_cons_of_mem _ hd')
        exact entry_run hk hv) ('\x7d' :: rest) rfl (by simp)
    rw [List.flatMap_map] at hmore
    rw [List.map_cons, intercalate_commas, List.flatMap_map, List.append_assoc, List.append_assoc,
      List.cons_append, List.cons_append]
    have hblank : ((ds.flatMap fun d => ',' :: ' ' :: (d.1.1 ++ ':' :: ' ' :: d.2.1)) ++
        '\x7d' :: rest).head? ≠ some ' ' := by
      cases ds <;> simp
    refine braceDisplay_entry hk hv ?_ ?_ rfl
    · cases ds <;> rfl
    · refine orElse_of_none (bind_none (generators_none _ hblank)) (bind_of_run hmore ?_)
      refine bind_of_run (expect_run ['\x7d'] rest) ?_
      simp only [List.map_map]
      rfl

theorem braceDisplay_dictComp (hk : Shows (expr n) key k) (hv : Shows (expr n) value v)
    (hne : gs ≠ []) (hgs : ∀ g ∈ gs, ShowsClause n g.1 g.2) :
    braceDisplay (expr n) (key ++ ':' :: ' ' :: (value ++ (gs.flatMap (·.1) ++ '\x7d' :: rest))) =
      some (.node .dictComp [("key", k), ("value", v), ("generators", .list (gs.map (·.2)))],
        rest) := by
  obtain ⟨hends, hread⟩ := generators_run hne hgs ('\x7d' :: rest) rfl (by simp)
  refine braceDisplay_entry hk hv hends.1 ?_ rfl
  exact orElse_run (bind_of_run hread (bind_of_run (expect_run ['\x7d'] rest) rfl))

end

/-! ## Parentheses -/

section

variable {first : List Char} {x y : Value} {qs gs : List (List Char × Value)}
  {out : Value × List Char}

theorem parenthesis_of_first (hx : Shows (element (expr n)) first x) (hrest : endsHere rest)
    (h : parenRest (expr n) x rest = some out) :
    parenthesis (expr n) (first ++ rest) = some out := by
  have hfirst := hx _ hrest
  refine orElse_of_none (bind_none (expect_none hfirst (element_foreign n (by decide) (by decide)) [])) ?_
  exact orElse_run (bind_of_run hfirst h)

theorem parenthesis_tuple (h : ∀ q ∈ qs, Shows (element (expr n)) q.1 q.2) (hlength : qs.length ≠ 1) :
    parenthesis (expr n) ([',', ' '].intercalate (qs.map (·.1)) ++ ')' :: rest) =
      some (.node .tuple [("elts", .list (qs.map (·.2)))], rest) := by
  match qs, hlength with
  | [], _ => exact orElse_run (bind_of_run (expect_run [')'] rest) rfl)
  | q :: q' :: qs, _ =>
    have hq := h q (by simp)
    have hq' := h q' (by simp)
    have hmore := following_run qs
      (fun p hp => h p (List.mem_cons_of_mem _ (List.mem_cons_of_mem _ hp))) (')' :: rest) rfl
      (by simp)
    have hends := (head?_following qs (c := ')') (by decide)
      (show (')' :: rest).head? = some ')' from rfl)).2 rfl
    rw [List.map_cons, intercalate_commas, List.flatMap_map, List.append_assoc, List.flatMap_cons]
    simp only [List.cons_append, List.append_assoc]
    refine parenthesis_of_first hq rfl ?_
    refine orElse_of_none (bind_none rfl) (orElse_run ?_)
    refine bind_of_run (expect_run [',', ' '] _) (bind_of_run (hq' _ hends) ?_)
    exact bind_of_run hmore (bind_of_run (expect_run [')'] rest) rfl)

theorem parenthesis_single (hx : Shows (element (expr n)) first x) :
    parenthesis (expr n) (first ++ ',' :: ')' :: rest) =
      some (.node .tuple [("elts", .list [x])], rest) :=
  parenthesis_of_first hx rfl (orElse_run (bind_of_run (expect_run [',', ')'] rest) rfl))

theorem parenthesis_generatorExp (hx : Shows (expr n) first x) (hne : gs ≠ [])
    (hgs : ∀ g ∈ gs, ShowsClause n g.1 g.2) :
    parenthesis (expr n) (first ++ (gs.flatMap (·.1) ++ ')' :: rest)) =
      some (.node .generatorExp [("elt", x), ("generators", .list (gs.map (·.2)))], rest) := by
  obtain ⟨hends, hread⟩ := generators_run hne hgs (')' :: rest) rfl (by simp)
  have hcomma (c : Char) : expect [',', c] (gs.flatMap (·.1) ++ ')' :: rest) = none := by
    cases gs with
    | nil => exact absurd rfl hne
    | cons g gs =>
      obtain ⟨⟨more, hmore | hmore⟩, -⟩ := hgs g List.mem_cons_self <;>
      · rw [List.flatMap_cons, hmore]
        rfl
  refine parenthesis_of_first (element_of_shows hx) hends.1 ?_
  refine orElse_of_none (bind_none (hcomma _)) (orElse_of_none (bind_none (hcomma _)) ?_)
  exact orElse_run (bind_of_run hread (bind_of_run (expect_run [')'] rest) rfl))

theorem parenthesis_of_operation (hx : Shows (expr n) first x)
    (hends : endsHere (' ' :: rest)) (hfor : expect " for ".toList (' ' :: rest) = none)
    (hasync : expect " async".toList (' ' :: rest) = none)
    (h : operation (expr n) x (' ' :: rest) = some out) :
    parenthesis (expr n) (first ++ ' ' :: rest) = some out := by
  have hclause : generators (expr n) (' ' :: rest) = none := by
    refine bind_none (bind_of_run (a := 0) ?_ (bind_none hfor))
    exact orElse_of_none (bind_none hasync) rfl
  refine parenthesis_of_first (element_of_shows hx) hends ?_
  refine orElse_of_none (bind_none rfl) (orElse_of_none (bind_none rfl) ?_)
  exact orElse_of_none (bind_none hclause) h

theorem parenthesis_namedExpr (hx : Shows (expr n) first x) (hy : Shows (expr n) value y) :
    parenthesis (expr n) (first ++ (" := ".toList ++ (value ++ ')' :: rest))) =
      some (.node .namedExpr [("target", x), ("value", y)], rest) := by
  refine parenthesis_of_operation hx rfl rfl rfl (orElse_run ?_)
  refine bind_of_run (expect_run " := ".toList _) (bind_of_run (hy _ rfl) ?_)
  exact bind_of_run (expect_run [')'] rest) rfl

theorem parenthesis_ifExp {test orelse : List Char} {z : Value} (hx : Shows (expr n) first x)
    (hy : Shows (expr n) test y) (hz : Shows (expr n) orelse z) :
    parenthesis (expr n)
        (first ++ (" if ".toList ++ (test ++ (" else ".toList ++ (orelse ++ ')' :: rest))))) =
      some (.node .ifExp [("test", y), ("body", x), ("orelse", z)], rest) := by
  refine parenthesis_of_operation hx rfl rfl rfl (orElse_of_none (bind_none rfl) (orElse_run ?_))
  refine bind_of_run (expect_run " if ".toList _) (bind_of_run (hy _ rfl) ?_)
  refine bind_of_run (expect_run " else ".toList _) (bind_of_run (hz _ rfl) ?_)
  exact bind_of_run (expect_run [')'] rest) rfl

theorem junction_run (word : List Char) (hne : word ≠ []) (hends : ∀ r, endsHere (word ++ r))
    (hstop : expect word (')' :: rest) = none)
    (hy : Shows (expr n) first y) (h : ∀ q ∈ qs, Shows (expr n) q.1 q.2) :
    junction (expr n) op word x (word ++ (first ++ (qs.flatMap (fun q => word ++ q.1) ++ ')' :: rest))) =
      some (.node .boolOp [("op", .node op []), ("values", .list (x :: y :: qs.map (·.2)))],
        rest) := by
  have hmany := many_run (do expect word; expr n) (fun r => endsHere r)
    (qs.map fun q => (word ++ q.1, q.2)) (bind_none hstop) rfl
    fun piece hpiece => by
      obtain ⟨q, hq, rfl⟩ := List.mem_map.mp hpiece
      refine ⟨by simp [hne], fun r hr => ⟨?_, ?_⟩⟩
      · rw [List.append_assoc]
        exact hends _
      · rw [List.append_assoc]
        exact bind_of_run (expect_run word _) (h q hq r hr)
  rw [List.flatMap_map, List.map_map] at hmany
  refine bind_of_run (expect_run word _) (bind_of_run (hy _ hmany.1) ?_)
  exact bind_of_run hmany.2 (bind_of_run (expect_run [')'] rest) rfl)

theorem parenthesis_boolOp {word : String} (hop : Source.boolSign op = some word)
    {second : List Char} (hx : Shows (expr n) first x) (hy : Shows (expr n) second y)
    (h : ∀ q ∈ qs, Shows (expr n) q.1 q.2) :
    parenthesis (expr n) ((" " ++ word ++ " ").toList.intercalate (first :: second :: qs.map (·.1)) ++
        ')' :: rest) =
      some (.node .boolOp [("op", .node op []), ("values", .list (x :: y :: qs.map (·.2)))],
        rest) := by
  rw [intercalate_cons, List.flatMap_cons, List.flatMap_map, List.append_assoc, List.append_assoc,
    List.append_assoc]
  have hsigns : op = .andOp ∧ word = "and" ∨ op = .orOp ∧ word = "or" := by
    cases op <;> first | (cases hop; done) | (cases hop; simp)
  rcases hsigns with ⟨rfl, rfl⟩ | ⟨rfl, rfl⟩
  · refine parenthesis_of_operation hx rfl rfl rfl ?_
    refine orElse_of_none (bind_none rfl) (orElse_of_none (bind_none rfl) (orElse_run ?_))
    exact junction_run " and ".toList (by simp) (fun _ => rfl) rfl hy h
  · refine parenthesis_of_operation hx rfl rfl rfl ?_
    refine orElse_of_none (bind_none rfl) (orElse_of_none (bind_none rfl) ?_)
    refine orElse_of_none (bind_none rfl) (orElse_run ?_)
    exact junction_run " or ".toList (by simp) (fun _ => rfl) rfl hy h

/-- After the first expression in parentheses, a sign is not taken for a word. -/
structure Apart (cs : List Char) : Prop where
  endsHere : endsHere cs = true
  noFor : expect " for ".toList cs = none
  noAsync : expect " async".toList cs = none
  noNamed : expect " := ".toList cs = none
  noIf : expect " if ".toList cs = none
  noAnd : expect " and ".toList cs = none
  noOr : expect " or ".toList cs = none

theorem apart_of_sign (h : Source.binarySign op = some sign ∨ Source.compareSign op = some sign)
    (rest : List Char) : Apart (' ' :: (sign.toList ++ ' ' :: rest)) := by
  cases op <;> rcases h with h | h <;> first | (cases h; done) | skip
  all_goals
    cases h
    exact ⟨rfl, rfl, rfl, rfl, rfl, rfl, rfl⟩

theorem parenthesis_of_signed (hx : Shows (expr n) first x) (hrest : Apart (' ' :: rest))
    (h : signed (expr n) x (' ' :: rest) = some out) :
    parenthesis (expr n) (first ++ ' ' :: rest) = some out := by
  refine parenthesis_of_operation hx hrest.endsHere hrest.noFor hrest.noAsync ?_
  refine orElse_of_none (bind_none hrest.noNamed) (orElse_of_none (bind_none hrest.noIf) ?_)
  exact orElse_of_none (bind_none hrest.noAnd) (orElse_of_none (bind_none hrest.noOr) h)

theorem operatorOf_binary (h : Source.binarySign op = some sign) (rest : List Char) :
    operatorOf Source.binarySign binaryOperators (sign.toList ++ ' ' :: rest) =
      some (op, rest) := by
  cases op <;> first | (cases h; done) | (cases h; rfl)

theorem operatorOf_unary (h : Source.unarySign op = some sign) (rest : List Char) :
    operatorOf Source.unarySign [.invert, .notOp, .uAdd, .uSub] (sign.toList ++ ' ' :: rest) =
      some (op, rest) := by
  cases op <;> first | (cases h; done) | (cases h; rfl)

theorem operatorOf_comparison (h : Source.compareSign op = some sign)
    (hnot : expect "not ".toList rest = none) :
    operatorOf Source.compareSign comparisons (sign.toList ++ ' ' :: rest) = some (op, rest) := by
  cases op with
  | is =>
    -- The sign of two words that starts like this one is tried first.
    cases h
    exact orElse_of_none (bind_none hnot) rfl
  | _ => first | (cases h; done) | (cases h; rfl)

/-- A comparison: the sign of an operator and an operand. -/
structure Comparison where
  op : Kind
  sign : String
  text : List Char
  operand : Value

namespace Comparison

def written (d : Comparison) : List Char := ' ' :: (d.sign.toList ++ ' ' :: d.text)

/-- The operator has this sign, and the text is read as the operand. -/
def Legible (n : Nat) (d : Comparison) : Prop :=
  Source.compareSign d.op = some d.sign ∧ Shows (expr n) d.text d.operand

end Comparison

theorem compared_run {d : Comparison} (h : d.Legible n) :
    Shows (compared (expr n)) d.written (.node d.op [], d.operand) := by
  intro rest hrest
  have hnot : expect "not ".toList (d.text ++ rest) = none :=
    expect_keyword_none (w := "not") (by simp) h.2 hrest
  have htext : d.written ++ rest = ' ' :: (d.sign.toList ++ ' ' :: (d.text ++ rest)) := by
    simp [Comparison.written]
  rw [htext]
  refine bind_of_run (expect_run [' '] _) (bind_of_run (operatorOf_comparison h.1 hnot) ?_)
  exact bind_of_run (h.2 rest hrest) rfl

theorem operatorOf_binary_none (h : Source.compareSign op = some sign) (rest : List Char) :
    operatorOf Source.binarySign binaryOperators (sign.toList ++ ' ' :: rest) = none := by
  cases op <;> first | (cases h; done) | (cases h; rfl)

theorem parenthesis_compare {ds : List Comparison} (hx : Shows (expr n) first x) (hne : ds ≠ [])
    (h : ∀ d ∈ ds, d.Legible n) :
    parenthesis (expr n) (first ++ (ds.flatMap (·.written) ++ ')' :: rest)) =
      some (.node .compare [("left", x), ("ops", .list (ds.map fun d => .node d.op [])),
        ("comparators", .list (ds.map (·.operand)))], rest) := by
  have hapart {d : Comparison} (hd : d ∈ ds) (r : List Char) : Apart (d.written ++ r) := by
    rw [Comparison.written, List.cons_append, List.append_assoc, List.cons_append]
    exact apart_of_sign (.inr (h d hd).1) _
  have hmany := (many_run (compared (expr n)) (fun r => endsHere r)
    (ds.map fun d => (d.written, (Value.node d.op [], d.operand)))
    (bind_none (show expect [' '] (')' :: rest) = none from rfl)) rfl fun piece hpiece => by
      obtain ⟨d, hd, rfl⟩ := List.mem_map.mp hpiece
      refine ⟨by simp [Comparison.written], fun r hr => ⟨(hapart hd r).endsHere, ?_⟩⟩
      exact compared_run (h d hd) r hr).2
  rw [List.flatMap_map] at hmany
  obtain ⟨d, ds', rfl⟩ := List.exists_cons_of_ne_nil hne
  have hd := hapart List.mem_cons_self (ds'.flatMap (·.written) ++ ')' :: rest)
  rw [List.flatMap_cons, List.append_assoc] at hmany ⊢
  refine parenthesis_of_signed hx hd (orElse_of_none ?_ (bind_of_run hmany ?_))
  · refine bind_of_run (expect_run [' '] _) (bind_none ?_)
    have hnone := operatorOf_binary_none (h d List.mem_cons_self).1
    exact (congrArg _ (List.append_assoc _ _ _)).trans (hnone _)
  · refine bind_of_run (expect_run [')'] rest) ?_
    simp only [List.map_map]
    rfl

theorem parenthesis_binOp (hop : Source.binarySign op = some sign) {right : List Char}
    (hx : Shows (expr n) first x) (hy : Shows (expr n) right y) :
    parenthesis (expr n) (first ++ ' ' :: (sign.toList ++ ' ' :: (right ++ ')' :: rest))) =
      some (.node .binOp [("left", x), ("op", .node op []), ("right", y)], rest) := by
  refine parenthesis_of_signed hx (apart_of_sign (.inl hop) _) (orElse_run ?_)
  refine bind_of_run (expect_run [' '] _) (bind_of_run (operatorOf_binary hop _) ?_)
  exact bind_of_run (hy _ rfl) (bind_of_run (expect_run [')'] rest) rfl)

theorem parenthesis_of_word (hparen : expect [')'] rest = none) (hstar : expect ['*'] rest = none)
    (hnone : expr n rest = none) (h : parenWord (expr n) rest = some out) :
    parenthesis (expr n) rest = some out := by
  refine orElse_of_none (bind_none hparen) (orElse_of_none (bind_none ?_) h)
  exact orElse_of_none (bind_none hstar) hnone

theorem parenthesis_unaryOp (hop : Source.unarySign op = some sign) {operand : List Char}
    (hy : Shows (expr n) operand y) :
    parenthesis (expr n) (sign.toList ++ ' ' :: (operand ++ ')' :: rest)) =
      some (.node .unaryOp [("op", .node op []), ("operand", y)], rest) := by
  have hstart : (∀ r, expect [')'] (sign.toList ++ ' ' :: r) = none) ∧
      (∀ r, expect ['*'] (sign.toList ++ ' ' :: r) = none) ∧
      ∀ r, expr n (sign.toList ++ ' ' :: r) = none := by
    cases op with
    | notOp =>
      cases hop
      exact ⟨fun _ => rfl, fun _ => rfl, fun _ => expr_keyword n (by simp) rfl rfl⟩
    | invert | uAdd | uSub =>
      cases hop
      exact ⟨fun _ => rfl, fun _ => rfl, fun _ => expr_foreign n (by decide) _⟩
    | _ => cases hop
  refine parenthesis_of_word (hstart.1 _) (hstart.2.1 _) (hstart.2.2 _) (orElse_run ?_)
  refine bind_of_run (operatorOf_unary hop _) (bind_of_run (hy _ rfl) ?_)
  exact bind_of_run (expect_run [')'] rest) rfl

theorem parenthesis_await (hy : Shows (expr n) text y) :
    parenthesis (expr n) ("await ".toList ++ (text ++ ')' :: rest)) =
      some (.node .await [("value", y)], rest) := by
  have hnone : expr n ("await".toList ++ ' ' :: (text ++ ')' :: rest)) = none :=
    expr_keyword n (by simp) rfl rfl
  refine parenthesis_of_word rfl rfl hnone (orElse_of_none (bind_none rfl) (orElse_run ?_))
  refine bind_of_run (expect_run "await ".toList _) (bind_of_run (hy _ rfl) ?_)
  exact bind_of_run (expect_run [')'] rest) rfl

theorem parenthesis_yield_none :
    parenthesis (expr n) ("yield".toList ++ ')' :: rest) =
      some (.node .yield [("value", .none)], rest) := by
  have hnone : expr n ("yield".toList ++ ')' :: rest) = none := expr_keyword n (by simp) rfl rfl
  refine parenthesis_of_word rfl rfl hnone ?_
  refine orElse_of_none (bind_none rfl) (orElse_of_none (bind_none rfl) (orElse_run ?_))
  exact bind_of_run (expect_run "yield)".toList rest) rfl

theorem parenthesis_yieldFrom (hy : Shows (expr n) text y) :
    parenthesis (expr n) ("yield from ".toList ++ (text ++ ')' :: rest)) =
      some (.node .yieldFrom [("value", y)], rest) := by
  have hnone : expr n ("yield".toList ++ ' ' :: ("from ".toList ++ (text ++ ')' :: rest))) = none :=
    expr_keyword n (by simp) rfl rfl
  refine parenthesis_of_word rfl rfl hnone ?_
  refine orElse_of_none (bind_none rfl) (orElse_of_none (bind_none rfl) ?_)
  refine orElse_of_none (bind_none rfl) (orElse_run ?_)
  refine bind_of_run (expect_run "yield from ".toList _) (bind_of_run (hy _ rfl) ?_)
  exact bind_of_run (expect_run [')'] rest) rfl

theorem parenthesis_yield (hy : Shows (expr n) text y) :
    parenthesis (expr n) ("yield ".toList ++ (text ++ ')' :: rest)) =
      some (.node .yield [("value", y)], rest) := by
  have hnone : expr n ("yield".toList ++ ' ' :: (text ++ ')' :: rest)) = none :=
    expr_keyword n (by simp) rfl rfl
  have hfrom : expect "from ".toList (text ++ ')' :: rest) = none :=
    expect_keyword_none (w := "from") (by simp) hy rfl
  refine parenthesis_of_word rfl rfl hnone ?_
  refine orElse_of_none (bind_none rfl) (orElse_of_none (bind_none rfl) ?_)
  refine orElse_of_none (bind_none rfl) (orElse_of_none (bind_none hfrom) ?_)
  refine bind_of_run (expect_run "yield ".toList _) (bind_of_run (hy _ rfl) ?_)
  exact bind_of_run (expect_run [')'] rest) rfl

end

end Reader

end TreeMacros
