import TreeMacros.Proofs.Lexemes

/-!
# Reading expressions

A reader for expressions in the form in which they are printed: compound expressions stand in
parentheses, and calls, attributes and subscripts follow what they belong to. It gives trees with
the fields of the grammar, apart from contexts.

`expr n` reads expressions that are nested less than `n` levels deep.
-/

namespace TreeMacros

variable {w : String}

namespace Reader

section

variable (e : Reader Value)

/-! ## The grammar -/

def following {α : Type} (p : Reader α) : Reader (List α) :=
  many do
    expect [',', ' ']
    p

/-- An element of a display, or a positional argument. -/
def element : Reader Value :=
  (do
    expect ['*']
    return .node .starred [("value", ← e)]) <|> e

def comprehension : Reader Value := do
  let async ← (do
    expect " async".toList
    return 1) <|> pure 0
  expect " for ".toList
  let target ← e
  expect " in ".toList
  let iter ← e
  let ifs ← many do
    expect " if ".toList
    e
  return .node .comprehension [("target", target), ("iter", iter), ("ifs", .list ifs),
    ("is_async", .int async)]

def generators : Reader Value := do
  let first ← comprehension e
  return .list (first :: (← many (comprehension e)))

def listDisplay : Reader Value :=
  (do
    expect [']']
    return .node .list [("elts", .list [])]) <|> do
  let first ← element e
  (do
    let gs ← generators e
    expect [']']
    return .node .listComp [("elt", first), ("generators", gs)]) <|> (do
    let more ← following (element e)
    expect [']']
    return .node .list [("elts", .list (first :: more))])

def entry : Reader (Value × Value) := do
  let key ← e
  expect [':', ' ']
  return (key, ← e)

/-- What follows the first key and value of a dictionary. -/
def dictRest (key value : Value) : Reader Value :=
  (do
    let gs ← generators e
    expect ['\x7d']
    return .node .dictComp [("key", key), ("value", value), ("generators", gs)]) <|> (do
    let more ← following (entry e)
    expect ['\x7d']
    return .node .dict [("keys", .list (key :: more.map (·.1))),
      ("values", .list (value :: more.map (·.2)))])

/-- What follows the brace of a dictionary or a set. -/
def braceDisplay : Reader Value :=
  (do
    expect ['\x7d']
    return .node .dict [("keys", .list []), ("values", .list [])]) <|> do
  let first ← element e
  (do
    expect [':', ' ']
    dictRest e first (← e)) <|> (do
    let gs ← generators e
    expect ['\x7d']
    return .node .setComp [("elt", first), ("generators", gs)]) <|> (do
    let more ← following (element e)
    expect ['\x7d']
    return .node .set [("elts", .list (first :: more))])

/-- One of some operators, and the blank after it. -/
def operatorOf (table : Kind → Option String) : List Kind → Reader Kind
  | [] => failure
  | k :: ks =>
    (do
      expect (((table k).getD "").toList ++ [' '])
      return k) <|> operatorOf table ks

/-- The operators of comparisons, those of two words first. -/
def comparisons : List Kind :=
  [.isNot, .notIn, .eq, .notEq, .lt, .ltE, .gt, .gtE, .is, .isIn]

def binaryOperators : List Kind :=
  [.add, .sub, .mult, .matMult, .div, .mod, .lShift, .rShift, .bitOr, .bitXor, .bitAnd, .floorDiv,
   .pow]

def compared : Reader (Value × Value) := do
  expect [' ']
  let op ← operatorOf Source.compareSign comparisons
  return (.node op [], ← e)

/-- A conjunction or disjunction after its first operand. -/
def junction (op : Kind) (word : List Char) (first : Value) : Reader Value := do
  expect word
  let second ← e
  let more ← many do
    expect word
    e
  expect [')']
  return .node .boolOp [("op", .node op []), ("values", .list (first :: second :: more))]

/-- An operation whose operator has a sign, after the first operand. -/
def signed (first : Value) : Reader Value :=
  (do
    expect [' ']
    let op ← operatorOf Source.binarySign binaryOperators
    let right ← e
    expect [')']
    return .node .binOp [("left", first), ("op", .node op []), ("right", right)]) <|> (do
    let more ← many (compared e)
    expect [')']
    return .node .compare [("left", first), ("ops", .list (more.map (·.1))),
      ("comparators", .list (more.map (·.2)))])

/-- An operation in parentheses, after the first operand. -/
def operation (first : Value) : Reader Value :=
  (do
    expect " := ".toList
    let value ← e
    expect [')']
    return .node .namedExpr [("target", first), ("value", value)]) <|> (do
    expect " if ".toList
    let test ← e
    expect " else ".toList
    let orelse ← e
    expect [')']
    return .node .ifExp [("test", test), ("body", first), ("orelse", orelse)]) <|>
  junction e .andOp " and ".toList first <|> junction e .orOp " or ".toList first <|> signed e first

/-- What follows the first expression in parentheses. -/
def parenRest (first : Value) : Reader Value :=
  (do
    expect ",)".toList
    return .node .tuple [("elts", .list [first])]) <|> (do
    expect ", ".toList
    let second ← element e
    let more ← following (element e)
    expect [')']
    return .node .tuple [("elts", .list (first :: second :: more))]) <|> (do
    let gs ← generators e
    expect [')']
    return .node .generatorExp [("elt", first), ("generators", gs)]) <|> operation e first

/-- What follows an opening parenthesis if there is no expression. -/
def parenWord : Reader Value :=
  (do
    let op ← operatorOf Source.unarySign [.invert, .notOp, .uAdd, .uSub]
    let operand ← e
    expect [')']
    return .node .unaryOp [("op", .node op []), ("operand", operand)]) <|> (do
    expect "await ".toList
    let value ← e
    expect [')']
    return .node .await [("value", value)]) <|> (do
    expect "yield)".toList
    return .node .yield [("value", .none)]) <|> (do
    expect "yield from ".toList
    let value ← e
    expect [')']
    return .node .yieldFrom [("value", value)]) <|> (do
    expect "yield ".toList
    let value ← e
    expect [')']
    return .node .yield [("value", value)])

def parenthesis : Reader Value :=
  (do
    expect [')']
    return .node .tuple [("elts", .list [])]) <|> (do
    let first ← element e
    parenRest e first) <|> parenWord e

/-- A constant, without or with the mark of older texts. -/
def constant (v : Value) (kind : Value) : Value := .node .constant [("value", v), ("kind", kind)]

/-- A constant or a name that starts with a letter. -/
def wordAtom : Reader Value := fun cs =>
  let w := cs.takeWhile isWordChar
  let rest := cs.dropWhile isWordChar
  if rest.head?.any isQuote then
    if w = ['u'] then (quoted rest).map fun r => (constant (.str (String.ofList r.1)) (.str "u"), r.2)
    else if w = ['b'] then
      (quoted rest).map fun r => (constant (.bytes (r.1.map fun c => UInt8.ofNat c.toNat)) .none, r.2)
    else none
  else if w = "True".toList then some (constant (.bool true) .none, rest)
  else if w = "False".toList then some (constant (.bool false) .none, rest)
  else if w = "None".toList then some (constant .none .none, rest)
  else if isIdentifier (String.ofList w) then some (.node .name [("id", .str (String.ofList w))], rest)
  else none

/-- The characters that do not stand for themselves in a formatted string. -/
def isMark (c : Char) : Bool := ['\x7b', '\x7d', Text.apostrophe].contains c

def plainChar : Reader Char
  | [] => none
  | c :: cs => if isMark c then none else some (c, cs)

/-- A character of a formatted string, outside its fields. -/
def literalChar : Reader Char :=
  (do
    expect ['\\', Text.apostrophe]
    return Text.apostrophe) <|> (do
    expect ['\\', 'n']
    return '\n') <|> plainChar

def literalPiece : Reader Value := do
  let cs ← many literalChar
  if cs.isEmpty then failure else return constant (.str (String.ofList cs)) .none

def conversion : Reader Value :=
  (do
    expect ['!', 's']
    return .int 115) <|> (do
    expect ['!', 'r']
    return .int 114) <|> (do
    expect ['!', 'a']
    return .int 97) <|> pure (.int (-1))

/-- A field, if `spec` reads what follows a colon. -/
def replacement (spec : Reader Value) : Reader Value := do
  expect ['\x7b']
  let value ← e
  let code ← conversion
  let format ← (do
    expect [':']
    spec) <|> pure .none
  expect ['\x7d']
  return .node .formattedValue [("value", value), ("conversion", code), ("format_spec", format)]

/-- Text and fields, where formats are nested less than some levels deep. -/
def pieces : Nat → Reader Value
  | 0 => failure
  | m + 1 => do
    let values ← many (literalPiece <|> replacement e (pieces m))
    return .node .joinedStr [("values", .list values)]

/-- A formatted string. Formats are nested less deep than there are characters. -/
def formatted : Reader Value := do
  expect ['f', Text.apostrophe]
  let rest ← get
  let v ← pieces e (rest.length + 1)
  expect [Text.apostrophe]
  return v

def atom : Reader Value
  | [] => none
  | c :: cs =>
    if c = '(' then parenthesis e cs
    else if c = '[' then listDisplay e cs
    else if c = '\x7b' then braceDisplay e cs
    else if c = '.' then (do
      expect ['.', '.']
      return constant .ellipsis .none : Reader Value) cs
    else if isQuote c then
      (quoted (c :: cs)).map fun r => (constant (.str (String.ofList r.1)) .none, r.2)
    else if c.isDigit then
      some (constant (numberValue (number (c :: cs)).1) .none, (number (c :: cs)).2)
    else (formatted e <|> wordAtom) (c :: cs)

/-- An argument of a call: a positional one ends at a comma or at the end of the arguments. -/
def argument : Reader (Value ⊕ Value) :=
  (do
    let v ← element e
    let rest ← get
    if rest.head? = some ',' || rest.head? = some ')' then return .inl v else failure) <|> (do
    expect ['*', '*']
    return .inr (.node .keyword [("arg", .none), ("value", ← e)])) <|> (do
    let name ← word
    expect ['=']
    return .inr (.node .keyword [("arg", .str name), ("value", ← e)]))

def arguments : Reader (List (Value ⊕ Value)) :=
  (do
    expect [')']
    return []) <|> (do
    let first ← argument e
    let more ← following (argument e)
    expect [')']
    return first :: more)

def callOf (args : List (Value ⊕ Value)) (func : Value) : Value :=
  .node .call [("func", func), ("args", .list (args.filterMap Sum.getLeft?)),
    ("keywords", .list (args.filterMap Sum.getRight?))]

def optional : Reader Value := e <|> pure .none

def dimension : Reader Value := do
  let lower ← optional e
  (do
    expect [':']
    let upper ← optional e
    let step ← (do
      expect [':']
      e) <|> pure .none
    return .node .slice [("lower", lower), ("upper", upper), ("step", step)]) <|>
    if lower.isNone then failure else pure (.node .index [("value", lower)])

def subscript : Reader Value := do
  let first ← dimension e
  let more ← following (dimension e)
  expect [']']
  return if more.isEmpty then first else .node .extSlice [("dims", .list (first :: more))]

def dotted : Reader (Value → Value) := do
  let name ← word
  return fun v => .node .attributeRef [("value", v), ("attr", .str name)]

/-- What may follow an expression and makes a larger one of it. -/
def suffix : Reader (Value → Value)
  | [] => none
  | c :: cs =>
    if c = '.' then dotted cs
    else if c = ' ' then (do
      expect ['.']
      dotted : Reader (Value → Value)) cs
    else if c = '(' then (do
      let args ← arguments e
      return callOf args : Reader (Value → Value)) cs
    else if c = '[' then (do
      let s ← subscript e
      return fun v => .node .subscript [("value", v), ("slice", s)] : Reader (Value → Value)) cs
    else none

def expression : Reader Value := do
  let first ← atom e
  let more ← many (suffix e)
  return more.foldl (fun v f => f v) first

end

/-- Reads an expression that is nested less than `n` levels deep. -/
def expr : Nat → Reader Value
  | 0 => fun _ => none
  | n + 1 => expression (expr n)

/-! ## Where expressions end -/

section

variable {α β : Type} {p q : Reader α} {f : α → Reader β} {a : α} {b : Option (β × List Char)}
  {cs r : List Char}

theorem bind_of_run (h : p cs = some (a, r)) (hf : f a r = b) : (p >>= f) cs = b :=
  (bind_run h).trans hf

theorem orElse_of_none {r : Option (α × List Char)} (h : p cs = none) (hq : q cs = r) :
    (p <|> q) cs = r :=
  (orElse_none h).trans hq

end

/-- What may follow an expression that is part of a larger one. -/
def endsHere : List Char → Bool
  | [] => true
  | c :: cs => [',', ')', ']', '\x7d', ':', '!'].contains c || (c == ' ' && cs.head? != some '.')

/-- What may follow a word or a constant. -/
structure Border (rest : List Char) : Prop where
  word : rest.head?.any isWordChar = false
  quote : rest.head?.any isQuote = false
  number : number rest = ([], rest)

variable {n : Nat} {c : Char} {cs text rest : List Char} {v : Value}

theorem border_cons (h : isWordChar c = false ∧ isQuote c = false ∧ isNumberChar c = false)
    (hdot : c = '.' → cs.head?.any Char.isDigit = false) : Border (c :: cs) := by
  obtain ⟨hword, hquote, hnumber⟩ := h
  have hstop : (isNumberChar c || (c == '.' && cs.head?.any Char.isDigit)) = false := by
    rw [hnumber, Bool.false_or]
    by_cases hc : c = '.'
    · rw [hdot hc, Bool.and_false]
    · simp [hc]
  refine ⟨hword, hquote, ?_⟩
  rw [number, hstop]
  rfl

theorem border_of_endsHere (h : endsHere rest) : Border rest := by
  cases rest with
  | nil => exact ⟨rfl, rfl, rfl⟩
  | cons c cs =>
    have hc : c ∈ [',', ')', ']', '\x7d', ':', '!', ' '] := by
      rcases Bool.or_eq_true_iff.mp h with h | h
      · have hmem : c ∈ [',', ')', ']', '\x7d', ':', '!'] := by simpa using h
        exact List.mem_append_left [' '] hmem
      · have hblank : c = ' ' := by simpa using (Bool.and_eq_true_iff.mp h).1
        simp [hblank]
    have hall : ∀ c ∈ [',', ')', ']', '\x7d', ':', '!', ' '], (isWordChar c = false ∧ isQuote c = false ∧
        isNumberChar c = false) ∧ c ≠ '.' := List.all_iff_forall_prop.mp rfl
    exact border_cons (hall c hc).1 fun hdot => absurd hdot (hall c hc).2

theorem suffix_of_endsHere (e : Reader Value) (h : endsHere rest) : suffix e rest = none := by
  cases rest with
  | nil => rfl
  | cons c cs =>
    rcases Bool.or_eq_true_iff.mp h with h | h
    · have hmem : c ∈ [',', ')', ']', '\x7d', ':', '!'] := by simpa using h
      have hall : ∀ c ∈ [',', ')', ']', '\x7d', ':', '!'], c ≠ '.' ∧ c ≠ ' ' ∧ c ≠ '(' ∧ c ≠ '[' :=
        List.all_iff_forall_prop.mp rfl
      obtain ⟨h1, h2, h3, h4⟩ := hall c hmem
      rw [suffix, if_neg h1, if_neg h2, if_neg h3, if_neg h4]
    · obtain ⟨hblank, hdot⟩ := Bool.and_eq_true_iff.mp h
      obtain rfl : c = ' ' := by simpa using hblank
      have hnone : expect ['.'] cs = none := by
        cases cs with
        | nil => rfl
        | cons d cs =>
          have hd : '.' ≠ d := by
            rintro rfl
            simp at hdot
          simp [expect, List.isPrefixOf?, hd]
      rw [suffix, if_neg (by decide), if_pos rfl]
      exact bind_none hnone

/-- The reader gives `a` for a text, where this may end. -/
def Shows {α : Type} (p : Reader α) (text : List Char) (a : α) : Prop :=
  ∀ rest, endsHere rest = true → p (text ++ rest) = some (a, rest)

/-! ## What is no expression -/

theorem wordAtom_none (hw : ∀ c ∈ w.toList, isWordChar c) (hname : isIdentifier w = false)
    (hconstant : w ∉ ["True", "False", "None"]) (hword : rest.head?.any isWordChar = false)
    (hquote : rest.head?.any isQuote = false) : wordAtom (w.toList ++ rest) = none := by
  obtain ⟨htake, hrest⟩ := span_word hw hword
  have hne (s : String) (hs : s ∈ ["True", "False", "None"]) : w.toList ≠ s.toList := by
    intro e
    exact hconstant (String.toList_inj.mp e ▸ hs)
  simp only [wordAtom, htake, hrest, hquote, String.ofList_toList, hname, Bool.false_eq_true,
    ↓reduceIte, if_neg (hne "True" (by simp)), if_neg (hne "False" (by simp)),
    if_neg (hne "None" (by simp))]

/-- The characters that no expression starts with. -/
def isForeign (c : Char) : Bool := " ,)]\x7d:*=~+-".toList.contains c

theorem expr_foreign (n : Nat) (hc : isForeign c) (cs : List Char) : expr n (c :: cs) = none := by
  cases n with
  | zero => rfl
  | succ n =>
    have hmem : c ∈ " ,)]\x7d:*=~+-".toList := by simpa [isForeign] using hc
    have hall : ∀ c ∈ " ,)]\x7d:*=~+-".toList, (c ≠ '(' ∧ c ≠ '[' ∧ c ≠ '\x7b' ∧ c ≠ '.') ∧
        isQuote c = false ∧ c.isDigit = false ∧ isWordChar c = false :=
      List.all_iff_forall_prop.mp rfl
    obtain ⟨⟨h1, h2, h3, h4⟩, hquote, hdigit, hword⟩ := hall c hmem
    have hatom : atom (expr n) (c :: cs) = none := by
      rw [atom, if_neg h1, if_neg h2, if_neg h3, if_neg h4, hquote, hdigit]
      have hnone : wordAtom ("".toList ++ c :: cs) = none :=
        wordAtom_none (by simp) (by decide) (by decide) hword hquote
      have hf : 'f' ≠ c := by
        rintro rfl
        cases hword
      exact orElse_of_none (bind_none (by simp [expect, List.isPrefixOf?, hf])) hnone
    exact bind_none hatom

theorem expr_keyword (n : Nat) (hw : w ∈ ["not", "from", "await", "yield"])
    (hword : rest.head?.any isWordChar = false) (hquote : rest.head?.any isQuote = false) :
    expr n (w.toList ++ rest) = none := by
  cases n with
  | zero => rfl
  | succ n =>
    have hnone : wordAtom (w.toList ++ rest) = none := by
      have hall : ∀ w ∈ ["not", "from", "await", "yield"], w.toList.all isWordChar ∧
          isIdentifier w = false ∧ w ∉ ["True", "False", "None"] := by decide
      obtain ⟨h1, h2, h3⟩ := hall w hw
      exact wordAtom_none (List.all_eq_true.mp h1) h2 h3 hword hquote
    have hatom : atom (expr n) (w.toList ++ rest) = wordAtom (w.toList ++ rest) := by
      simp only [List.mem_cons, List.not_mem_nil, or_false] at hw
      rcases hw with rfl | rfl | rfl | rfl <;> rfl
    exact bind_none (hatom.trans hnone)

theorem expect_none {α : Type} {p : Reader α} {r : α × List Char} (h : p cs = some r)
    (hc : ∀ cs, p (c :: cs) = none) (more : List Char) : expect (c :: more) cs = none := by
  cases hx : expect (c :: more) cs with
  | none => rfl
  | some r =>
    have hstart := eq_append_of_expect (show expect (c :: more) cs = some ((), r.2) from hx)
    rw [hstart, List.cons_append, hc] at h
    cases h

theorem expect_keyword_none (hw : w ∈ ["not", "from", "await", "yield"]) (h : Shows (expr n) text v)
    (hrest : endsHere rest) : expect (w.toList ++ [' ']) (text ++ rest) = none := by
  cases hx : expect (w.toList ++ [' ']) (text ++ rest) with
  | none => rfl
  | some r =>
    have hstart := eq_append_of_expect
      (show expect (w.toList ++ [' ']) (text ++ rest) = some ((), r.2) from hx)
    have hread := h rest hrest
    rw [hstart, List.append_assoc, expr_keyword n hw rfl rfl] at hread
    cases hread

/-! ## Elements -/

theorem element_of_shows (h : Shows (expr n) text v) : Shows (element (expr n)) text v := by
  intro rest hrest
  have hstar := expect_none (h rest hrest) (expr_foreign (c := '*') n (by decide)) []
  exact orElse_of_none (bind_none hstar) (h rest hrest)

theorem element_foreign (n : Nat) (hc : isForeign c) (hstar : c ≠ '*') (cs : List Char) :
    element (expr n) (c :: cs) = none := by
  refine orElse_of_none (bind_none ?_) (expr_foreign n hc cs)
  simp [expect, List.isPrefixOf?, hstar.symm]

theorem element_starred (h : Shows (expr n) text v) :
    Shows (element (expr n)) ('*' :: text) (.node .starred [("value", v)]) := by
  intro rest hrest
  exact orElse_run (bind_of_run rfl (bind_of_run (h rest hrest) rfl))

section

variable {α : Type} {p : Reader α}

theorem following_run (ps : List (List Char × α)) (h : ∀ q ∈ ps, Shows p q.1 q.2)
    (rest : List Char) (hrest : endsHere rest)
    (hstop : rest.head? ≠ some ',') :
    following p (ps.flatMap (fun q => ',' :: ' ' :: q.1) ++ rest) = some (ps.map (·.2), rest) := by
  have hnone : expect [',', ' '] rest = none := by
    cases rest with
    | nil => rfl
    | cons c rest =>
      have hc : ',' ≠ c := by
        rintro rfl
        exact hstop rfl
      simp [expect, List.isPrefixOf?, hc]
  have hmany := (many_run (do expect [',', ' ']; p) (fun r => endsHere r)
    (ps.map fun q => (',' :: ' ' :: q.1, q.2)) (bind_none hnone) hrest fun piece hpiece => by
      obtain ⟨q, hq, rfl⟩ := List.mem_map.mp hpiece
      refine ⟨by simp, fun r hr => ⟨rfl, ?_⟩⟩
      exact bind_of_run rfl (h q hq r hr)).2
  rw [List.flatMap_map, List.map_map] at hmany
  exact hmany

end

/-! ## Comprehensions -/

/-- What may follow a clause of a comprehension. -/
def EndsClause (rest : List Char) : Prop := endsHere rest = true ∧ expect " if ".toList rest = none

/-- The text is that of a clause, wherever it may end. -/
def ShowsClause (n : Nat) (text : List Char) (v : Value) : Prop :=
  (∃ more, text = " for ".toList ++ more ∨ text = " async for ".toList ++ more) ∧
    ∀ rest, EndsClause rest → comprehension (expr n) (text ++ rest) = some (v, rest)

theorem endsClause_of_head (hrest : endsHere rest) (h : rest.head? ≠ some ' ') :
    EndsClause rest := by
  refine ⟨hrest, ?_⟩
  cases rest with
  | nil => rfl
  | cons c rest =>
    have hc : ' ' ≠ c := by
      rintro rfl
      exact h rfl
    simp [expect, List.isPrefixOf?, hc]

theorem ShowsClause.endsClause (h : ShowsClause n text v) (rest : List Char) :
    EndsClause (text ++ rest) ∧ text ≠ [] := by
  obtain ⟨⟨more, rfl | rfl⟩, -⟩ := h
  · exact ⟨⟨rfl, rfl⟩, by simp⟩
  · exact ⟨⟨rfl, rfl⟩, by simp⟩

theorem comprehension_none (e : Reader Value) (h : rest.head? ≠ some ' ') :
    comprehension e rest = none := by
  have hblank (word : List Char) : expect (' ' :: word) rest = none := by
    cases rest with
    | nil => rfl
    | cons c rest =>
      have hc : ' ' ≠ c := by
        rintro rfl
        exact h rfl
      simp [expect, List.isPrefixOf?, hc]
  refine bind_of_run (a := 0) (r := rest) ?_ (bind_none (hblank _))
  exact orElse_of_none (bind_none (hblank _)) rfl

theorem many_conditions {conds : List (List Char × Value)} (h : ∀ q ∈ conds, Shows (expr n) q.1 q.2)
    (hrest : EndsClause rest) :
    endsHere (conds.flatMap (fun q => " if ".toList ++ q.1) ++ rest) ∧
      many (do expect " if ".toList; expr n) (conds.flatMap (fun q => " if ".toList ++ q.1) ++ rest) =
        some (conds.map (·.2), rest) := by
  have hmany := many_run (do expect " if ".toList; expr n) (fun r => endsHere r)
    (conds.map fun q => (" if ".toList ++ q.1, q.2)) (bind_none hrest.2) hrest.1
    fun piece hpiece => by
      obtain ⟨q, hq, rfl⟩ := List.mem_map.mp hpiece
      refine ⟨by simp, fun r hr => ⟨rfl, ?_⟩⟩
      exact bind_of_run rfl (h q hq r hr)
  rw [List.flatMap_map, List.map_map] at hmany
  exact hmany

theorem showsClause_comprehension (async : Bool) {target iter : List Char} {t i : Value}
    {conds : List (List Char × Value)} (ht : Shows (expr n) target t) (hi : Shows (expr n) iter i)
    (hc : ∀ q ∈ conds, Shows (expr n) q.1 q.2) :
    ShowsClause n ((if async then " async".toList else []) ++ " for ".toList ++ target ++
        " in ".toList ++ iter ++ conds.flatMap (fun q => " if ".toList ++ q.1))
      (.node .comprehension [("target", t), ("iter", i), ("ifs", .list (conds.map (·.2))),
        ("is_async", .int (if async then 1 else 0))]) := by
  constructor
  · cases async with
    | false => exact ⟨target ++ (" in ".toList ++ (iter ++ conds.flatMap fun q => " if ".toList ++ q.1)),
        .inl (by simp)⟩
    | true => exact ⟨target ++ (" in ".toList ++ (iter ++ conds.flatMap fun q => " if ".toList ++ q.1)),
        .inr (by simp)⟩
  · intro rest hrest
    obtain ⟨hends, hmany⟩ := many_conditions hc hrest
    have htail : ∀ k : Int, (do
        expect " for ".toList
        let target ← expr n
        expect " in ".toList
        let iter ← expr n
        let ifs ← many (do expect " if ".toList; expr n)
        return .node .comprehension [("target", target), ("iter", iter), ("ifs", .list ifs),
          ("is_async", .int k)] : Reader Value) (" for ".toList ++ (target ++ (" in ".toList ++
            (iter ++ (conds.flatMap (fun q => " if ".toList ++ q.1) ++ rest))))) =
        some (.node .comprehension [("target", t), ("iter", i), ("ifs", .list (conds.map (·.2))),
          ("is_async", .int k)], rest) := by
      intro k
      refine bind_of_run rfl (bind_of_run (ht _ rfl) ?_)
      refine bind_of_run rfl (bind_of_run (hi _ hends) ?_)
      exact bind_of_run hmany rfl
    cases async with
    | false =>
      simp only [Bool.false_eq_true, ↓reduceIte, List.nil_append, List.append_assoc]
      refine bind_of_run (a := 0) ?_ (htail 0)
      exact orElse_of_none (bind_none rfl) rfl
    | true =>
      simp only [↓reduceIte, List.append_assoc]
      refine bind_of_run (a := 1) ?_ (htail 1)
      exact orElse_run (bind_of_run (expect_run _ _) rfl)

theorem generators_run {gs : List (List Char × Value)} (hne : gs ≠ [])
    (h : ∀ g ∈ gs, ShowsClause n g.1 g.2) (rest : List Char) (hrest : endsHere rest)
    (hstop : rest.head? ≠ some ' ') :
    EndsClause (gs.flatMap (·.1) ++ rest) ∧
      generators (expr n) (gs.flatMap (·.1) ++ rest) = some (.list (gs.map (·.2)), rest) := by
  have hmany {gs : List (List Char × Value)} (h : ∀ g ∈ gs, ShowsClause n g.1 g.2) :=
    many_run (comprehension (expr n)) EndsClause gs
      (comprehension_none _ hstop) (endsClause_of_head hrest hstop) fun g hg =>
        ⟨((h g hg).endsClause []).2, fun r hr => ⟨((h g hg).endsClause r).1, (h g hg).2 r hr⟩⟩
  refine ⟨(hmany h).1, ?_⟩
  cases gs with
  | nil => exact absurd rfl hne
  | cons g gs =>
    obtain ⟨hends, hmore⟩ := hmany fun g' hg' => h g' (List.mem_cons_of_mem _ hg')
    rw [List.flatMap_cons, List.append_assoc]
    refine bind_of_run ((h g List.mem_cons_self).2 _ hends) ?_
    exact bind_of_run hmore rfl

theorem generators_none (e : Reader Value) (h : rest.head? ≠ some ' ') : generators e rest = none :=
  bind_none (comprehension_none e h)

end Reader

end TreeMacros
