import Mathlib
import TreeMacros.Proofs.Names
import TreeMacros.Source.Print

/-!
# Reading words and constants

A reader takes a value from the front of a text and leaves the rest. The readers here are for
words, numbers and quoted text, as they are written in source text. Each finds the end of what it
reads by itself, so it gets back what was written whatever follows.
-/

namespace TreeMacros

variable {text ds : List Char}

/-- Reads a value from the front of a text, and leaves the rest of it. -/
abbrev Reader := StateT (List Char) Option

namespace Reader

variable {α β : Type} {p q : Reader α} {f : α → Reader β} {a : α} {cs rest : List Char}

/-! ## Readers -/

theorem pure_run (a : α) (cs : List Char) : (pure a : Reader α) cs = some (a, cs) := rfl

theorem bind_run (h : p cs = some (a, rest)) : (p >>= f) cs = f a rest := by
  change (p cs >>= fun r => f r.1 r.2) = _
  rw [h]
  rfl

theorem bind_none (h : p cs = none) : (p >>= f) cs = none := by
  change (p cs >>= fun r => f r.1 r.2) = _
  rw [h]
  rfl

theorem orElse_run (h : p cs = some (a, rest)) : (p <|> q) cs = some (a, rest) := by
  change (p cs <|> q cs) = _
  rw [h]
  rfl

theorem orElse_none (h : p cs = none) : (p <|> q) cs = q cs := by
  change (p cs <|> q cs) = _
  rw [h]
  rfl

def expect (text : List Char) : Reader Unit :=
  fun cs => (text.isPrefixOf? cs).map fun rest => ((), rest)

theorem expect_run (text rest : List Char) : expect text (text ++ rest) = some ((), rest) := by
  have hprefix : text.isPrefixOf? (text ++ rest) = some rest := by
    induction text with
    | nil => cases rest <;> rfl
    | cons c text ih => simp [List.isPrefixOf?, ih]
  rw [expect, hprefix]
  rfl

theorem eq_append_of_expect (h : expect text cs = some ((), rest)) : cs = text ++ rest := by
  have hprefix : text.isPrefixOf? cs = some rest := by
    cases hp : text.isPrefixOf? cs with
    | none => simp [expect, hp] at h
    | some r =>
      have hr : r = rest := by simpa [expect, hp] using h
      rw [hr]
  clear h
  induction text generalizing cs with
  | nil =>
    rw [List.isPrefixOf?] at hprefix
    exact Option.some.inj hprefix
  | cons c text ih =>
    cases cs with
    | nil => simp [List.isPrefixOf?] at hprefix
    | cons d cs =>
      by_cases hcd : c = d
      · subst hcd
        simp only [List.isPrefixOf?, beq_self_eq_true, ↓reduceIte] at hprefix
        rw [ih hprefix, List.cons_append]
      · simp [List.isPrefixOf?, hcd] at hprefix

def many (step : Reader α) : Reader (List α)
  | cs =>
    match step cs with
    | some (a, rest) =>
      if rest.length < cs.length then (many step rest).map fun r => (a :: r.1, r.2)
      else some ([], cs)
    | none => some ([], cs)
termination_by cs => cs.length

theorem many_stop {step : Reader α} (h : step cs = none) : many step cs = some ([], cs) := by
  rw [many, h]

theorem many_step {step : Reader α} (h : step cs = some (a, rest)) (hlt : rest.length < cs.length) :
    many step cs = (many step rest).map fun r => (a :: r.1, r.2) := by
  rw [many, h]
  exact if_pos hlt

theorem many_run (step : Reader α) (E : List Char → Prop) (ps : List (List Char × α))
    (hstop : step rest = none) (hrest : E rest)
    (h : ∀ p ∈ ps, p.1 ≠ [] ∧ ∀ r, E r → E (p.1 ++ r) ∧ step (p.1 ++ r) = some (p.2, r)) :
    E (ps.flatMap (·.1) ++ rest) ∧
      many step (ps.flatMap (·.1) ++ rest) = some (ps.map (·.2), rest) := by
  induction ps with
  | nil => exact ⟨hrest, many_stop hstop⟩
  | cons p ps ih =>
    obtain ⟨hE, hmany⟩ := ih fun q hq => h q (List.mem_cons_of_mem _ hq)
    obtain ⟨hne, hp⟩ := h p List.mem_cons_self
    obtain ⟨hE', hstep⟩ := hp _ hE
    rw [List.flatMap_cons, List.append_assoc]
    have hlt : (ps.flatMap (·.1) ++ rest).length < (p.1 ++ (ps.flatMap (·.1) ++ rest)).length := by
      have hpos := List.length_pos_iff.mpr hne
      simp only [List.length_append]
      omega
    rw [many_step hstep hlt, hmany]
    exact ⟨hE', rfl⟩

/-! ## Words -/

/-- The characters of identifiers; of those that take more than seven bits, some more. -/
def isWordChar (c : Char) : Bool :=
  c.isAlphanum || c == '_' || (128 ≤ c.toNat && !Text.isBlank c)

def keywords : List String :=
  ["False", "None", "True", "and", "as", "assert", "async", "await", "break", "class", "continue",
   "def", "del", "elif", "else", "except", "finally", "for", "from", "global", "if", "import", "in",
   "is", "lambda", "nonlocal", "not", "or", "pass", "raise", "return", "try", "while", "with",
   "yield"]

/-- Identifiers, which are no keywords. -/
def isIdentifier (s : String) : Bool :=
  !s.toList.isEmpty && s.toList.all isWordChar && !s.toList.head?.any Char.isDigit &&
    !keywords.contains s

/-- Reads the characters of a word, if there are any. -/
def word : Reader String :=
  fun cs => some (String.ofList (cs.takeWhile isWordChar), cs.dropWhile isWordChar)

theorem span_word (hcs : ∀ c ∈ cs, isWordChar c) (hrest : rest.head?.any isWordChar = false) :
    (cs ++ rest).takeWhile isWordChar = cs ∧ (cs ++ rest).dropWhile isWordChar = rest := by
  have hstop : rest.takeWhile isWordChar = [] ∧ rest.dropWhile isWordChar = rest := by
    cases rest with
    | nil => exact ⟨rfl, rfl⟩
    | cons c rest =>
      have hc : isWordChar c = false := hrest
      simp [hc]
  rw [List.takeWhile_append_of_pos hcs, List.dropWhile_append_of_pos hcs, hstop.1, hstop.2,
    List.append_nil]
  exact ⟨rfl, rfl⟩

theorem word_run {s : String} (hs : ∀ c ∈ s.toList, isWordChar c)
    (hrest : rest.head?.any isWordChar = false) : word (s.toList ++ rest) = some (s, rest) := by
  obtain ⟨htake, hdrop⟩ := span_word hs hrest
  rw [word, htake, hdrop, String.ofList_toList]

theorem exists_of_isIdentifier {s : String} (h : isIdentifier s) :
    ∃ c cs, s.toList = c :: cs ∧ c.isDigit = false ∧ (∀ d ∈ s.toList, isWordChar d) ∧
      s ∉ keywords := by
  simp only [isIdentifier, Bool.and_eq_true, Bool.not_eq_true', List.all_eq_true] at h
  obtain ⟨⟨⟨hne, hall⟩, hdigit⟩, hkeyword⟩ := h
  cases hs : s.toList with
  | nil => simp [hs] at hne
  | cons c cs =>
    rw [hs] at hdigit hall
    exact ⟨c, cs, rfl, by simpa using hdigit, hall, by simpa using hkeyword⟩

/-! ## Numbers -/

def isNumberChar (c : Char) : Bool := c.isDigit || ['e', '+', '-', 'j'].contains c

/-- Reads a number. A dot belongs to it if a digit follows. -/
def number : List Char → List Char × List Char
  | [] => ([], [])
  | c :: cs =>
    if isNumberChar c || (c == '.' && cs.head?.any Char.isDigit) then
      (c :: (number cs).1, (number cs).2)
    else ([], c :: cs)

/-- A text that is read as one number. -/
def isNumeral : List Char → Bool
  | [] => true
  | c :: cs => (isNumberChar c || (c == '.' && cs.head?.any Char.isDigit)) && isNumeral cs

theorem isNumeral_append (hcs : isNumeral cs) (hds : isNumeral ds) :
    isNumeral (cs ++ ds) := by
  induction cs with
  | nil => exact hds
  | cons c cs ih =>
    obtain ⟨hc, hcs⟩ := Bool.and_eq_true_iff.mp hcs
    rw [List.cons_append, isNumeral, ih hcs, Bool.and_true]
    cases cs with
    | nil =>
      have hnumber : isNumberChar c := by simpa using hc
      simp [hnumber]
    | cons d cs => exact hc

theorem number_run (h : isNumeral text) (hrest : number rest = ([], rest)) :
    number (text ++ rest) = (text, rest) := by
  induction text with
  | nil => exact hrest
  | cons c text ih =>
    obtain ⟨hc, htext⟩ := Bool.and_eq_true_iff.mp h
    have hc' : (isNumberChar c || (c == '.' && (text ++ rest).head?.any Char.isDigit)) := by
      cases text with
      | nil =>
        have hnumber : isNumberChar c := by simpa using hc
        simp [hnumber]
      | cons d text => exact hc
    rw [List.cons_append, number, if_pos hc', ih htext]

theorem isNumeral_digits (h : ∀ d ∈ ds, d.isDigit) (cs : List Char) :
    isNumeral (ds ++ cs) = isNumeral cs := by
  induction ds with
  | nil => rfl
  | cons d ds ih =>
    have hd := h d List.mem_cons_self
    rw [List.cons_append, isNumeral, ih fun e he => h e (List.mem_cons_of_mem _ he)]
    simp [isNumberChar, hd]

def isDecimal (cs : List Char) : Bool := !cs.isEmpty && cs.all Char.isDigit

def isExponent : List Char → Bool
  | 'e' :: sign :: digits => (sign == '+' || sign == '-') && isDecimal digits
  | _ => false

/-- The written form of finite floating-point numbers that are not negative. -/
def isPoint (cs : List Char) : Bool :=
  !(cs.takeWhile Char.isDigit).isEmpty &&
    match cs.dropWhile Char.isDigit with
    | '.' :: more =>
      !(more.takeWhile Char.isDigit).isEmpty &&
        ((more.dropWhile Char.isDigit).isEmpty || isExponent (more.dropWhile Char.isDigit))
    | more => isExponent more

theorem isDecimal_iff : isDecimal cs ↔ cs ≠ [] ∧ ∀ d ∈ cs, d.isDigit := by
  simp [isDecimal]

theorem exists_of_isExponent (h : isExponent cs) :
    ∃ sign ds, cs = 'e' :: sign :: ds ∧ (sign = '+' ∨ sign = '-') ∧ isDecimal ds := by
  unfold isExponent at h
  split at h
  next sign ds => exact ⟨sign, ds, rfl, by simpa using (Bool.and_eq_true_iff.mp h).1,
      (Bool.and_eq_true_iff.mp h).2⟩
  next => cases h

private theorem isDecimal_takeWhile (h : (cs.takeWhile Char.isDigit).isEmpty = false) :
    isDecimal (cs.takeWhile Char.isDigit) :=
  isDecimal_iff.mpr ⟨by simpa using h, fun d hd => List.mem_takeWhile_imp hd⟩

theorem exists_of_isPoint (h : isPoint cs) :
    ∃ whole more, cs = whole ++ more ∧ isDecimal whole ∧
      (isExponent more ∨ ∃ part exponent, more = '.' :: (part ++ exponent) ∧
        isDecimal part = true ∧ (exponent = [] ∨ isExponent exponent)) := by
  obtain ⟨hwhole, hmore⟩ := Bool.and_eq_true_iff.mp h
  refine ⟨cs.takeWhile Char.isDigit, cs.dropWhile Char.isDigit, List.takeWhile_append_dropWhile.symm,
    isDecimal_takeWhile (by simpa using hwhole), ?_⟩
  generalize cs.dropWhile Char.isDigit = more at hmore
  split at hmore
  next more =>
    obtain ⟨hpart, hexponent⟩ := Bool.and_eq_true_iff.mp hmore
    right
    refine ⟨more.takeWhile Char.isDigit, more.dropWhile Char.isDigit, ?_,
      isDecimal_takeWhile (by simpa using hpart), by simpa using hexponent⟩
    rw [List.takeWhile_append_dropWhile]
  next => exact .inl hmore

/-- The number that a text stands for. Infinite numbers are written as one that is too large. -/
def numberValue (text : List Char) : Value :=
  if text = "1e309".toList then .float "inf"
  else if text = "1e309j".toList then .complex "infj"
  else if text.all Char.isDigit then .int (Nat.ofDigitChars 10 text 0)
  else if text.getLast? = some 'j' then .complex (String.ofList text)
  else .float (String.ofList text)

/-- Numbers that have a literal: no negative ones, and imaginary ones rather than complex ones. -/
def isNumber : Value → Bool
  | .int n => 0 ≤ n
  | .float w => w == "inf" || isPoint w.toList
  | .complex w => w == "infj" || (w.toList.getLast? == some 'j' &&
      (isDecimal w.toList.dropLast || isPoint w.toList.dropLast))
  | _ => false

theorem writeInfinities_of_notMem (h : 'i' ∉ cs) : Source.writeInfinities cs = cs := by
  fun_induction Source.writeInfinities cs with
  | case1 cs => simp at h
  | case2 c cs _ ih => rw [ih (fun hi => h (List.mem_cons_of_mem _ hi))]
  | case3 => rfl

theorem isNumberChar_of_isNumeral (h : isNumeral cs) {c : Char} (hc : c ∈ cs) :
    isNumberChar c ∨ c = '.' := by
  induction cs with
  | nil => cases hc
  | cons d cs ih =>
    obtain ⟨hd, hcs⟩ := Bool.and_eq_true_iff.mp h
    rcases List.mem_cons.mp hc with rfl | hc
    · rcases Bool.or_eq_true_iff.mp hd with hd | hd
      · exact .inl hd
      · exact .inr (by simpa using (Bool.and_eq_true_iff.mp hd).1)
    · exact ih hcs hc

theorem writtenNumber_of_isNumeral {w : String} (h : isNumeral w.toList) :
    Source.writtenNumber w = w := by
  have hi : 'i' ∉ w.toList := by
    intro hi
    rcases isNumberChar_of_isNumeral h hi with h | h
    · exact absurd h (by decide)
    · exact absurd h (by decide)
  rw [Source.writtenNumber, writeInfinities_of_notMem hi, String.ofList_toList]

theorem isNumeral_of_isExponent (h : isExponent cs) : isNumeral cs := by
  obtain ⟨sign, ds, rfl, hsign, hds⟩ := exists_of_isExponent h
  have hdigits := isNumeral_digits (isDecimal_iff.mp hds).2 []
  rw [List.append_nil] at hdigits
  rcases hsign with rfl | rfl <;> simpa [isNumeral, isNumberChar] using hdigits

theorem isNumeral_of_isPoint (h : isPoint cs) : isNumeral cs := by
  obtain ⟨whole, more, rfl, hwhole, hmore⟩ := exists_of_isPoint h
  rw [isNumeral_digits (isDecimal_iff.mp hwhole).2]
  rcases hmore with hmore | ⟨part, exponent, rfl, hpart, hexponent⟩
  · exact isNumeral_of_isExponent hmore
  · obtain ⟨hne, hdigits⟩ := isDecimal_iff.mp hpart
    have hrest : isNumeral exponent := by
      rcases hexponent with rfl | hexponent
      · rfl
      · exact isNumeral_of_isExponent hexponent
    rw [isNumeral, isNumeral_digits hdigits, hrest]
    cases part with
    | nil => exact absurd rfl hne
    | cons d part => simp [hdigits d List.mem_cons_self]

theorem isNumeral_of_isDecimal (h : isDecimal cs) : isNumeral cs := by
  have hdigits := isNumeral_digits (isDecimal_iff.mp h).2 []
  rwa [List.append_nil] at hdigits

theorem exists_digits_of_isPoint (h : isPoint cs) :
    ∃ before ds, cs = before ++ ds ∧ isDecimal ds := by
  have hexponent {x : List Char} (hx : isExponent x) :
      ∃ before ds, x = before ++ ds ∧ isDecimal ds := by
    obtain ⟨sign, ds, rfl, -, hds⟩ := exists_of_isExponent hx
    exact ⟨['e', sign], ds, rfl, hds⟩
  obtain ⟨whole, more, rfl, -, hmore | ⟨part, exponent, rfl, hpart, rfl | hx⟩⟩ := exists_of_isPoint h
  · obtain ⟨before, ds, rfl, hds⟩ := hexponent hmore
    exact ⟨whole ++ before, ds, by simp, hds⟩
  · exact ⟨whole ++ ['.'], part, by simp, hpart⟩
  · obtain ⟨before, ds, rfl, hds⟩ := hexponent hx
    exact ⟨whole ++ '.' :: (part ++ before), ds, by simp, hds⟩

theorem not_all_isDigit_of_isPoint (h : isPoint cs) : cs.all Char.isDigit = false := by
  cases hall : cs.all Char.isDigit with
  | false => rfl
  | true =>
    have hdrop : cs.dropWhile Char.isDigit = [] :=
      List.dropWhile_eq_nil_iff.mpr (List.all_eq_true.mp hall)
    simp [isPoint, hdrop, isExponent] at h

theorem numberValue_of_isPoint (h : isPoint cs) :
    numberValue cs = .float (String.ofList cs) := by
  have hfinite : cs ≠ "1e309".toList ∧ cs ≠ "1e309j".toList := by
    constructor <;>
    · rintro rfl
      exact absurd h (by decide)
  have hlast : cs.getLast? ≠ some 'j' := by
    obtain ⟨before, ds, rfl, hds⟩ := exists_digits_of_isPoint h
    obtain ⟨hne, hdigits⟩ := isDecimal_iff.mp hds
    intro hj
    rw [List.getLast?_append_of_ne_nil _ hne] at hj
    exact absurd (hdigits 'j' (List.mem_of_getLast? hj)) (by decide)
  rw [numberValue, if_neg hfinite.1, if_neg hfinite.2, not_all_isDigit_of_isPoint h, if_neg hlast]
  rfl

/-- A number is written as a text that stands for it and starts with a digit. -/
theorem exists_literal_of_isNumber {v : Value} (h : isNumber v) :
    ∃ d ds, (Source.literal v).toList = d :: ds ∧ d.isDigit ∧
      isNumeral (d :: ds) = true ∧ numberValue (d :: ds) = v := by
  have hpoint {cs : List Char} (hcs : isDecimal cs ∨ isPoint cs) :
      ∃ d ds, cs = d :: ds ∧ d.isDigit ∧ isNumeral cs := by
    have hwhole : ∃ whole more, cs = whole ++ more ∧ isDecimal whole := by
      rcases hcs with hcs | hcs
      · exact ⟨cs, [], by simp, hcs⟩
      · obtain ⟨whole, more, rfl, hwhole, -⟩ := exists_of_isPoint hcs
        exact ⟨whole, more, rfl, hwhole⟩
    have hnumeral : isNumeral cs :=
      hcs.elim isNumeral_of_isDecimal isNumeral_of_isPoint
    obtain ⟨whole, more, rfl, hwhole⟩ := hwhole
    obtain ⟨hne, hdigits⟩ := isDecimal_iff.mp hwhole
    cases whole with
    | nil => exact absurd rfl hne
    | cons d ds => exact ⟨d, ds ++ more, rfl, hdigits d List.mem_cons_self, hnumeral⟩
  cases v with
  | int n =>
    obtain ⟨m, rfl⟩ := Int.eq_ofNat_of_zero_le (of_decide_eq_true h)
    have htext : (Value.int m).repr = String.ofList (Nat.toDigits 10 m) := by
      rw [Value.repr]
      exact Nat.toString_eq_ofList_toDigits
    have hdigits : ∀ d ∈ Nat.toDigits 10 m, d.isDigit := fun d hd =>
      Nat.isDigit_of_mem_toDigits (by decide) (by decide) hd
    have hdecimal : isDecimal (Nat.toDigits 10 m) :=
      isDecimal_iff.mpr ⟨Nat.toDigits_ne_nil, hdigits⟩
    obtain ⟨d, ds, hcs, hd, hnumeral⟩ := hpoint (.inl hdecimal)
    have hliteral : (Source.literal (.int m)).toList = Nat.toDigits 10 m := by
      rw [Source.literal, htext, writtenNumber_of_isNumeral (by simpa using hnumeral)]
      simp
    have hvalue : numberValue (Nat.toDigits 10 m) = .int m := by
      have hfinite : Nat.toDigits 10 m ≠ "1e309".toList ∧ Nat.toDigits 10 m ≠ "1e309j".toList := by
        constructor <;>
        · intro e
          have he := hdigits 'e' (by rw [e]; decide)
          exact absurd he (by decide)
      have hall : (Nat.toDigits 10 m).all Char.isDigit := List.all_eq_true.mpr hdigits
      simp only [numberValue, hfinite, ↓reduceIte, hall, Nat.ofDigitChars_ten_toDigits]
    rw [hcs] at hliteral hnumeral hvalue
    exact ⟨d, ds, hliteral, hd, hnumeral, hvalue⟩
  | float w =>
    rcases Bool.or_eq_true_iff.mp h with hinf | hw
    · obtain rfl : w = "inf" := by simpa using hinf
      exact ⟨'1', "e309".toList, by decide, by decide, by decide, rfl⟩
    · obtain ⟨d, ds, hcs, hd, hnumeral⟩ := hpoint (.inr hw)
      have hliteral : (Source.literal (.float w)).toList = w.toList := by
        rw [Source.literal, Value.repr, writtenNumber_of_isNumeral hnumeral]
      have hvalue := numberValue_of_isPoint hw
      rw [String.ofList_toList] at hvalue
      rw [hcs] at hliteral hnumeral hvalue
      exact ⟨d, ds, hliteral, hd, hnumeral, hvalue⟩
  | complex w =>
    rcases Bool.or_eq_true_iff.mp h with hinf | hw
    · obtain rfl : w = "infj" := by simpa using hinf
      exact ⟨'1', "e309j".toList, by decide, by decide, by decide, rfl⟩
    · obtain ⟨hlast, hw⟩ := Bool.and_eq_true_iff.mp hw
      have hj : w.toList.getLast? = some 'j' := by simpa using hlast
      have hsplit : w.toList = w.toList.dropLast ++ ['j'] := by
        rw [List.dropLast_append_getLast? 'j' hj]
      have hsort := Bool.or_eq_true_iff.mp hw
      obtain ⟨d, ds, hcs, hd, hnumeral⟩ := hpoint hsort
      have hall : isNumeral w.toList := by
        rw [hsplit]
        exact isNumeral_append hnumeral (by decide)
      have hliteral : (Source.literal (.complex w)).toList = w.toList := by
        rw [Source.literal, Value.repr, writtenNumber_of_isNumeral hall]
      have hvalue : numberValue w.toList = .complex w := by
        have hfinite : w.toList ≠ "1e309".toList ∧ w.toList ≠ "1e309j".toList := by
          constructor
          · intro e
            rw [e] at hj
            exact absurd hj (by decide)
          · intro e
            rw [e] at hsort
            exact absurd hsort (by decide)
        have hdigits : w.toList.all Char.isDigit = false := by
          rw [hsplit]
          simp
        rw [numberValue, if_neg hfinite.1, if_neg hfinite.2, hdigits, if_pos hj, String.ofList_toList]
        rfl
      have hcs' : w.toList = d :: (ds ++ ['j']) := by rw [hsplit, hcs]; rfl
      rw [hcs'] at hliteral hall hvalue
      exact ⟨d, ds ++ ['j'], hliteral, hd, hall, hvalue⟩
  | _ => cases h

/-! ## Quoted text -/

/-- Reads a character that is given by its number. -/
def hexChar (width : Nat) : Reader Char :=
  fun cs => if width ≤ cs.length then
    some (Char.ofNat (Text.digitsValue (cs.take width)), cs.drop width) else none

def escape : Reader Char
  | [] => none
  | c :: cs =>
    if c = 'x' then hexChar 2 cs
    else if c = 'u' then hexChar 4 cs
    else if c = 'U' then hexChar 8 cs
    else if c = 'n' then some ('\n', cs)
    else if c = 'r' then some ('\r', cs)
    else if c = 't' then some ('\t', cs)
    else some (c, cs)

def quotedChar (quote : Char) : Reader Char
  | [] => none
  | c :: cs =>
    if c = quote then none
    else if c = '\\' then escape cs
    else some (c, cs)

def isQuote (c : Char) : Bool := c == Text.apostrophe || c == '"'

def quoted : Reader (List Char)
  | [] => none
  | q :: cs =>
    if isQuote q then (do
      let text ← many (quotedChar q)
      expect [q]
      return text : Reader (List Char)) cs
    else none

theorem length_hex {width n : Nat} (hwidth : 0 < width) (h : n < 16 ^ width) :
    (Text.hex width n).toList.length = width := by
  have hle := (Nat.length_toDigits_le_iff (b := 16) (by decide) hwidth).mpr h
  simp only [Text.hex, String.toList_ofList, List.length_append, List.length_replicate]
  omega

theorem hexChar_run {width : Nat} (hwidth : 0 < width) {c : Char} (h : c.toNat < 16 ^ width)
    (rest : List Char) :
    hexChar width ((Text.hex width c.toNat).toList ++ rest) = some (c, rest) := by
  have hlength := length_hex hwidth h
  have hle : width ≤ ((Text.hex width c.toNat).toList ++ rest).length := by
    rw [List.length_append, hlength]
    omega
  rw [hexChar, if_pos hle, List.take_left' hlength, List.drop_left' hlength, Text.digitsValue_hex,
    Char.ofNat_toNat]

theorem isQuote_quoteFor (holds : Char → Bool) : isQuote (Text.quoteFor holds) := by
  unfold Text.quoteFor
  split <;> decide

theorem quotedChar_run {quote : Char} (hquote : isQuote quote) (c : Char) :
    quotedChar quote ((Text.escapeChar quote c).toList ++ rest) = some (c, rest) := by
  have hescape (cs : List Char) : quotedChar quote ('\\' :: cs) = escape cs := by
    have hne : '\\' ≠ quote := by
      rintro rfl
      exact absurd hquote (by decide)
    simp [quotedChar, hne]
  unfold Text.escapeChar
  split
  next h =>
    have hc : c ∉ ['x', 'u', 'U', 'n', 'r', 't'] := by
      rcases Bool.or_eq_true_iff.mp h with h | h
      · obtain rfl : c = quote := by simpa using h
        intro hmem
        have hall : ∀ c ∈ ['x', 'u', 'U', 'n', 'r', 't'], isQuote c = false :=
          List.all_iff_forall_prop.mp rfl
        rw [hall c hmem] at hquote
        cases hquote
      · obtain rfl : c = '\\' := by simpa using h
        decide
    simp only [List.mem_cons, List.not_mem_nil, or_false, not_or] at hc
    simp [hescape, escape, hc]
  next h =>
    obtain ⟨hne, hback⟩ : c ≠ quote ∧ c ≠ '\\' := by simpa [not_or] using h
    split
    next h => simp [hescape, escape, (by simpa using h : c = '\n')]
    next =>
      split
      next h => simp [hescape, escape, (by simpa using h : c = '\r')]
      next =>
        split
        next h => simp [hescape, escape, (by simpa using h : c = '\t')]
        next =>
          split
          next => simp [quotedChar, hne, hback]
          next =>
            split
            next h =>
              simpa [hescape, escape] using hexChar_run (by decide : 0 < 2)
                (by omega : c.toNat < 16 ^ 2) rest
            next =>
              split
              next h =>
                simpa [hescape, escape] using hexChar_run (by decide : 0 < 4)
                  (by omega : c.toNat < 16 ^ 4) rest
              next =>
                have hvalid : c.toNat < 16 ^ 8 := by
                  have := c.val.toNat_lt
                  have : c.toNat = c.val.toNat := rfl
                  omega
                simpa [hescape, escape] using hexChar_run (by decide : 0 < 8) hvalid rest

theorem quoted_pieces {q : Char} (hq : isQuote q) (ps : List (List Char × Char))
    (h : ∀ p ∈ ps, ∀ rest, quotedChar q (p.1 ++ rest) = some (p.2, rest)) (rest : List Char) :
    quoted (q :: (ps.flatMap (·.1) ++ q :: rest)) = some (ps.map (·.2), rest) := by
  have hstop : quotedChar q (q :: rest) = none := by simp [quotedChar]
  have hmany := (many_run (quotedChar q) (fun _ => True) ps hstop trivial fun p hp => by
    refine ⟨?_, fun r _ => ⟨trivial, h p hp r⟩⟩
    intro hnil
    have hread := h p hp []
    simp [hnil, quotedChar] at hread).2
  rw [quoted, if_pos hq, bind_run hmany]
  exact (bind_run (expect_run [q] rest)).trans rfl

theorem quoted_run (s : String) (rest : List Char) :
    quoted ((Text.quoted s).toList ++ rest) = some (s.toList, rest) := by
  generalize hq : Text.quoteFor (s.toList.contains ·) = q
  have hquote : isQuote q := hq ▸ isQuote_quoteFor _
  have htext : (Text.quoted s).toList ++ rest =
      q :: ((s.toList.map fun c => ((Text.escapeChar q c).toList, c)).flatMap (·.1) ++ q :: rest) := by
    simp only [Text.quoted, hq]
    simp [List.flatMap_map]
  have hread := quoted_pieces hquote (s.toList.map fun c => ((Text.escapeChar q c).toList, c))
    fun p hp r => by
      obtain ⟨c, -, rfl⟩ := List.mem_map.mp hp
      exact quotedChar_run hquote c
  rw [htext, hread rest, List.map_map]
  simp [Function.comp_def]

theorem toNat_ofNat_byte (b : UInt8) : (Char.ofNat b.toNat).toNat = b.toNat := by
  rw [Char.ofNat, dif_pos (.inl (by have := b.toNat_lt; omega))]
  rfl

theorem quotedChar_byte {quote : Char} (hquote : isQuote quote) (b : UInt8) :
    quotedChar quote ((Text.escapeByte quote b).toList ++ rest) = some (Char.ofNat b.toNat, rest) := by
  unfold Text.escapeByte
  split
  next =>
    have hne : '\\' ≠ quote := by
      rintro rfl
      exact absurd hquote (by decide)
    have hrun := hexChar_run (c := Char.ofNat b.toNat) (by decide : 0 < 2)
      (by rw [toNat_ofNat_byte]; have := b.toNat_lt; omega) rest
    rw [toNat_ofNat_byte] at hrun
    simpa [quotedChar, hne, escape] using hrun
  next => exact quotedChar_run hquote _

theorem quotedBytes_run (bs : List UInt8) : ∃ text, (Text.quotedBytes bs).toList = 'b' :: text ∧
    ∀ rest, quoted (text ++ rest) = some (bs.map fun b => Char.ofNat b.toNat, rest) := by
  generalize hq : Text.quoteFor (fun c => bs.any (·.toNat == c.toNat)) = q
  have hquote : isQuote q := hq ▸ isQuote_quoteFor _
  refine ⟨q :: (bs.flatMap (fun b => (Text.escapeByte q b).toList) ++ [q]), ?_, fun rest => ?_⟩
  · simp [Text.quotedBytes, hq, List.flatMap_map]
  · have hread := quoted_pieces hquote
      (bs.map fun b => ((Text.escapeByte q b).toList, Char.ofNat b.toNat)) (fun p hp r => by
        obtain ⟨b, -, rfl⟩ := List.mem_map.mp hp
        exact quotedChar_byte hquote b) rest
    rw [List.flatMap_map, List.map_map] at hread
    simpa [Function.comp_def] using hread

end Reader

end TreeMacros
