import Mathlib.Data.List.DropRight
import Mathlib.Data.List.TakeWhile
import TreeMacros.Proofs.SourcePhase

/-!
# Dialect imports and lines

A dialect import is meant to be a line of its own. The scan finds these lines, but takes what
follows along, up to the last line end before a parenthesis or a backslash. So it gives the lines
if and only if there is nothing but blanks to take along, and nothing else looks like an import.
-/

namespace TreeMacros.Dialect

open Text (isBlank strip)

variable {cs rest head region l b : List Char} {n : Nat}

/-! ## Lines -/

/-- What a text is from its start, and from after each line feed. -/
def lineStarts (cs : List Char) : List (List Char) := cs :: later cs
where
  later : List Char → List (List Char)
    | [] => []
    | c :: cs => if c == '\n' then cs :: later cs else later cs

def firstLine (cs : List Char) : List Char := cs.takeWhile (· != '\n')

def afterLine (cs : List Char) : List Char := cs.dropWhile (· != '\n')

def isNameChar (c : Char) : Bool :=
  c == '.' || c == '_' || ('0' ≤ c && c ≤ '9') || ('A' ≤ c && c ≤ 'Z') || ('a' ≤ c && c ≤ 'z')

/-- The characters that a statement may have after `import dialects,`. -/
def isPlainChar (c : Char) : Bool := c != '(' && c != '\\'

/-- What follows `from`, a name and `import dialects,`. -/
def afterHead (isName : Char → Bool) (cs : List Char) : Option (List Char) := do
  let rest ← dropWord "from" cs
  let rest ← dropSome isBlank rest
  let rest ← dropSome isName rest
  let rest ← dropSome isBlank rest
  dropWord "import dialects," rest

/-- Whether a line is a dialect import, without parentheses and backslashes. -/
def isImportLine (line : List Char) : Bool :=
  match (afterHead isNameChar line).bind (dropSome isBlank) with
  | some names => !names.isEmpty && names.all isPlainChar
  | none => false

/-- The imports among the lines that start in these places. -/
def importsAt (starts : List (List Char)) : List String :=
  ((starts.map firstLine).filter isImportLine).map fun l => strip (String.ofList l)

/-- The lines that are dialect imports, in order. -/
def importLines (text : String) : List String := importsAt (lineStarts text.toList)

/-- What is taken along of the text after a line. -/
def takenAlong (rest : List Char) : List Char :=
  let region := rest.takeWhile isPlainChar
  if region.length == rest.length then region
  else ((region.reverse.dropWhile (· != '\n')).drop 1).reverse

/-- Whether an import that starts here is a line, and nothing is taken along but blanks. -/
def isTidyAt (cs : List Char) : Bool :=
  if isImportLine (firstLine cs) then (takenAlong (afterLine cs)).all isBlank
  else (importLength? cs).isNone

def isTidy (text : String) : Bool := (lineStarts text.toList).all isTidyAt

/-! ## Runs of characters -/

section

variable {p : Char → Bool} {a c : List Char}

theorem dropWhile_append_of_head (ha : ∀ x ∈ a, p x)
    (hc : ∀ x, c.head? = some x → p x = false) : (a ++ c).dropWhile p = c := by
  rw [List.dropWhile_append_of_pos ha]
  cases c with
  | nil => rfl
  | cons x c => simp [hc x rfl]

theorem dropSome_append (hne : a ≠ []) (ha : ∀ x ∈ a, p x)
    (hc : ∀ x, c.head? = some x → p x = false) : dropSome p (a ++ c) = some c := by
  cases a with
  | nil => exact absurd rfl hne
  | cons x a =>
    have hx : p x := ha x (by simp)
    have hdrop := dropWhile_append_of_head ha hc
    rw [List.cons_append] at hdrop ⊢
    simp only [dropSome, hx, ↓reduceIte, hdrop]

theorem eq_append_of_dropSome (h : dropSome p cs = some c) :
    ∃ a, a ≠ [] ∧ (∀ x ∈ a, p x) ∧ cs = a ++ c ∧ ∀ x, c.head? = some x → p x = false := by
  cases cs with
  | nil => cases h
  | cons x cs =>
    simp only [dropSome] at h
    split at h
    next hx =>
      cases h
      refine ⟨(x :: cs).takeWhile p, by simp [hx], fun y hy => ?_, ?_, fun y hy => ?_⟩
      · exact List.all_eq_true.mp List.all_takeWhile y hy
      · exact List.takeWhile_append_dropWhile.symm
      · have hhead := List.head?_dropWhile_not p (x :: cs)
        rw [hy] at hhead
        simpa using hhead
    next => cases h

theorem dropWord_append (word : String) (c : List Char) :
    dropWord word (word.toList ++ c) = some c := by
  simp [dropWord, ← String.length_toList]

theorem eq_append_of_dropWord {word : String} (h : dropWord word cs = some c) :
    cs = word.toList ++ c := by
  unfold dropWord at h
  split at h
  next hword =>
    cases h
    obtain ⟨rest, rfl⟩ := List.isPrefixOf_iff_prefix.mp hword
    simp [← String.length_toList]
  next => cases h

end

theorem isModuleChar_iff (c : Char) : isModuleChar c ↔
    c.toNat = 46 ∨ (48 ≤ c.toNat ∧ c.toNat ≤ 57) ∨ (65 ≤ c.toNat ∧ c.toNat ≤ 122) := by
  have hdot : c = '.' ↔ c.toNat = 46 := by
    rw [← Char.toNat_inj]
    rfl
  simp only [isModuleChar, Bool.or_eq_true, Bool.and_eq_true, beq_iff_eq, decide_eq_true_eq, hdot,
    Char.le_def, UInt32.le_iff_toNat_le]
  exact or_assoc

theorem not_isBlank_of_isModuleChar {c : Char} (h : isModuleChar c) : isBlank c = false := by
  have hc := (isModuleChar_iff c).mp h
  simp only [isBlank, Bool.or_eq_false_iff, Bool.and_eq_false_iff, decide_eq_false_iff_not,
    beq_eq_false_iff_ne]
  omega

theorem isModuleChar_of_isNameChar {c : Char} (h : isNameChar c) : isModuleChar c := by
  have hdot : c = '.' ↔ c.toNat = 46 := by
    rw [← Char.toNat_inj]
    rfl
  have hunder : c = '_' ↔ c.toNat = 95 := by
    rw [← Char.toNat_inj]
    rfl
  simp only [isNameChar, Bool.or_eq_true, Bool.and_eq_true, beq_iff_eq, decide_eq_true_eq, hdot,
    hunder, Char.le_def, UInt32.le_iff_toNat_le] at h
  change (((c.toNat = 46 ∨ c.toNat = 95) ∨ (48 ≤ c.toNat ∧ c.toNat ≤ 57)) ∨
    (65 ≤ c.toNat ∧ c.toNat ≤ 90)) ∨ (97 ≤ c.toNat ∧ c.toNat ≤ 122) at h
  rw [isModuleChar_iff]
  omega

/-! ## Heads of imports -/

/-- `from`, a name and `import dialects,`, with blanks in between. -/
def IsHead (isName : Char → Bool) (head : List Char) : Prop :=
  ∃ b m b', b ≠ [] ∧ (∀ c ∈ b, isBlank c = true) ∧ m ≠ [] ∧ (∀ c ∈ m, isName c = true) ∧
    b' ≠ [] ∧ (∀ c ∈ b', isBlank c = true) ∧
    head = "from".toList ++ (b ++ (m ++ (b' ++ "import dialects,".toList)))

theorem head?_of_forall {p : Char → Bool} {a c : List Char} {x : Char} (hne : a ≠ [])
    (ha : ∀ x ∈ a, p x) (hx : (a ++ c).head? = some x) : p x := by
  cases a with
  | nil => exact absurd rfl hne
  | cons y a =>
    obtain rfl : y = x := Option.some.inj hx
    exact ha y (by simp)

/-- Heads are read in one way only, since blanks are no characters of names. -/
theorem afterHead_eq_some {isName : Char → Bool}
    (hname : ∀ c, isName c → isBlank c = false) :
    afterHead isName cs = some rest ↔ ∃ head, IsHead isName head ∧ cs = head ++ rest := by
  constructor
  · intro h
    obtain ⟨r₁, h₁, h⟩ := Option.bind_eq_some_iff.mp h
    obtain ⟨r₂, h₂, h⟩ := Option.bind_eq_some_iff.mp h
    obtain ⟨r₃, h₃, h⟩ := Option.bind_eq_some_iff.mp h
    obtain ⟨r₄, h₄, h₅⟩ := Option.bind_eq_some_iff.mp h
    obtain ⟨b, hb, hbs, rfl, -⟩ := eq_append_of_dropSome h₂
    obtain ⟨m, hm, hms, rfl, -⟩ := eq_append_of_dropSome h₃
    obtain ⟨b', hb', hbs', rfl, -⟩ := eq_append_of_dropSome h₄
    refine ⟨_, ⟨b, m, b', hb, hbs, hm, hms, hb', hbs', rfl⟩, ?_⟩
    rw [eq_append_of_dropWord h₁, eq_append_of_dropWord h₅]
    simp only [List.append_assoc]
  · rintro ⟨_, ⟨b, m, b', hb, hbs, hm, hms, hb', hbs', rfl⟩, rfl⟩
    have hblank : ∀ c, isBlank c → isName c = false := by
      intro c hc
      cases hn : isName c with
      | false => rfl
      | true => rw [hname c hn] at hc; cases hc
    have h₁ : dropSome isBlank (b ++ (m ++ (b' ++ ("import dialects,".toList ++ rest)))) = _ :=
      dropSome_append hb hbs fun x hx => hname x (head?_of_forall hm hms hx)
    have h₂ : dropSome isName (m ++ (b' ++ ("import dialects,".toList ++ rest))) = _ :=
      dropSome_append hm hms fun x hx => hblank x (head?_of_forall hb' hbs' hx)
    have h₃ : dropSome isBlank (b' ++ ("import dialects,".toList ++ rest)) = _ :=
      dropSome_append hb' hbs' fun x hx => by cases hx; rfl
    simp only [afterHead, List.append_assoc, dropWord_append, h₁, h₂, h₃, Option.bind_eq_bind,
      Option.bind_some]

theorem isHead_mono {isName isName' : Char → Bool} (h : ∀ c, isName c → isName' c)
    (hh : IsHead isName head) : IsHead isName' head := by
  obtain ⟨b, m, b', hb, hbs, hm, hms, hb', hbs', rfl⟩ := hh
  exact ⟨b, m, b', hb, hbs, hm, fun c hc => h c (hms c hc), hb', hbs', rfl⟩

theorem head?_of_isHead {isName : Char → Bool} (h : IsHead isName head) (hcs : head <+: cs) :
    cs.head? = some 'f' := by
  obtain ⟨b, m, b', -, -, -, -, -, -, rfl⟩ := h
  obtain ⟨rest, rfl⟩ := hcs
  rfl

theorem isImportLine_iff (line : List Char) :
    isImportLine line ↔ ∃ head b names, IsHead isNameChar head ∧ line = head ++ (b ++ names) ∧
      b ≠ [] ∧ (∀ c ∈ b, isBlank c) ∧ names ≠ [] ∧
      (∀ c, names.head? = some c → isBlank c = false) ∧ ∀ c ∈ names, isPlainChar c := by
  have hname : ∀ c, isNameChar c → isBlank c = false :=
    fun c hc => not_isBlank_of_isModuleChar (isModuleChar_of_isNameChar hc)
  unfold isImportLine
  constructor
  · intro h
    split at h
    next names hnames =>
      obtain ⟨rest, hrest, hdrop⟩ := Option.bind_eq_some_iff.mp hnames
      obtain ⟨head, hhead, rfl⟩ := (afterHead_eq_some hname).mp hrest
      obtain ⟨b, hb, hbs, rfl, hstop⟩ := eq_append_of_dropSome hdrop
      simp only [Bool.and_eq_true, Bool.not_eq_true', List.isEmpty_eq_false_iff, List.all_eq_true] at h
      exact ⟨head, b, names, hhead, rfl, hb, hbs, h.1, hstop, h.2⟩
    next => cases h
  · rintro ⟨head, b, names, hhead, rfl, hb, hbs, hne, hstop, hplain⟩
    rw [(afterHead_eq_some hname).mpr ⟨head, hhead, rfl⟩, Option.bind_some,
      dropSome_append hb hbs hstop]
    simp only [Bool.and_eq_true, Bool.not_eq_true', List.isEmpty_eq_false_iff, List.all_eq_true]
    exact ⟨hne, hplain⟩

/-! ## Ends of imports -/

def AtLineEnd (cs : List Char) : Prop := ∀ c, cs.head? = some c → c = '\n'

theorem importLength?_eq (cs : List Char) :
    importLength? cs = (afterHead isModuleChar cs).bind fun rest =>
      (namesPart rest).map fun names => cs.length - rest.length + names.length := by
  simp only [importLength?, afterHead, Option.bind_eq_bind, Option.bind_assoc, Option.map_eq_bind]
  rfl

theorem upToLastLineEnd_eq_some {before : List Char} (h : upToLastLineEnd cs = some before) :
    ∃ after, cs = before ++ '\n' :: after := by
  unfold upToLastLineEnd at h
  split at h
  next c rest hrest =>
    split at h
    · cases h
      have hc : c = '\n' := by
        have hhead := List.head?_dropWhile_not (· != '\n') cs.reverse
        rw [hrest] at hhead
        simpa using hhead
      refine ⟨(cs.reverse.takeWhile (· != '\n')).reverse, ?_⟩
      have hsplit := List.takeWhile_append_dropWhile (p := (· != '\n')) (l := cs.reverse)
      rw [hrest, hc] at hsplit
      have hreverse := congrArg List.reverse hsplit
      simpa using hreverse.symm
    · cases h
  next => cases h

theorem namesPart_of_region {c d : Char} (h : cs.takeWhile isPlainChar = c :: d :: region) :
    namesPart cs = if !isBlank c then none
      else if (c :: d :: region).length == cs.length then some (c :: d :: region)
      else upToLastLineEnd (c :: d :: region) := by
  change cs.takeWhile (fun c => c != '(' && c != '\\') = _ at h
  simp only [namesPart, h]

theorem namesPart_eq_some {names : List Char} (h : namesPart cs = some names) :
    ∃ rest, cs = names ++ rest ∧ AtLineEnd rest := by
  have hsplit := List.takeWhile_append_dropWhile (p := isPlainChar) (l := cs)
  match hregion : cs.takeWhile isPlainChar with
  | [] | [_] =>
    change cs.takeWhile (fun c => c != '(' && c != '\\') = _ at hregion
    simp [namesPart, hregion] at h
  | c :: d :: region =>
    rw [hregion] at hsplit
    rw [namesPart_of_region hregion] at h
    split at h
    · cases h
    · split at h
      next hlength =>
        cases h
        refine ⟨[], ?_, by simp [AtLineEnd]⟩
        have hnil : cs.dropWhile isPlainChar = [] := by
          have hsum := congrArg List.length hsplit
          rw [List.length_append, beq_iff_eq.mp hlength] at hsum
          exact List.length_eq_zero_iff.mp (by omega)
        rw [← hsplit, hnil]
      next =>
        obtain ⟨after, hafter⟩ := upToLastLineEnd_eq_some h
        refine ⟨'\n' :: (after ++ cs.dropWhile isPlainChar), ?_, fun x hx => ?_⟩
        · conv_lhs => rw [← hsplit, hafter]
          simp
        · cases hx
          rfl

theorem importLength?_eq_some (h : importLength? cs = some n) :
    ∃ found rest, cs = found ++ rest ∧ n = found.length ∧ found.head? = some 'f' ∧
      AtLineEnd rest := by
  rw [importLength?_eq] at h
  obtain ⟨rest, hrest, h⟩ := Option.bind_eq_some_iff.mp h
  obtain ⟨names, hnames, rfl⟩ := Option.map_eq_some_iff.mp h
  obtain ⟨head, hhead, rfl⟩ := (afterHead_eq_some fun _ => not_isBlank_of_isModuleChar).mp hrest
  obtain ⟨tail, rfl, htail⟩ := namesPart_eq_some hnames
  refine ⟨head ++ names, tail, by simp, ?_, ?_, htail⟩
  · simp only [List.length_append]
    omega
  · exact head?_of_isHead hhead (List.prefix_append _ _)

theorem firstLine_append_afterLine (cs : List Char) : firstLine cs ++ afterLine cs = cs :=
  List.takeWhile_append_dropWhile

theorem notMem_firstLine (cs : List Char) : '\n' ∉ firstLine cs := by
  intro h
  have hne := List.all_eq_true.mp List.all_takeWhile '\n' h
  simp at hne

theorem atLineEnd_afterLine (cs : List Char) : AtLineEnd (afterLine cs) := by
  intro c hc
  have hhead := List.head?_dropWhile_not (· != '\n') cs
  rw [afterLine] at hc
  rw [hc] at hhead
  simpa using hhead

theorem isPlainChar_of_isBlank {c : Char} (h : isBlank c) : isPlainChar c := by
  simp only [isPlainChar, Bool.and_eq_true, bne_iff_ne, ne_eq]
  constructor <;> rintro rfl <;> cases h

theorem upToLastLineEnd_append (hcs : 2 ≤ cs.length) (hregion : '\n' ∈ region) :
    upToLastLineEnd (cs ++ region) =
      some (cs ++ ((region.reverse.dropWhile (· != '\n')).drop 1).reverse) := by
  have hdrop : (cs ++ region).reverse.dropWhile (· != '\n') =
      region.reverse.dropWhile (· != '\n') ++ cs.reverse := by
    rw [List.reverse_append, List.dropWhile_append, if_neg]
    simp only [List.isEmpty_iff, List.dropWhile_eq_nil_iff]
    intro h
    have hne := h '\n' (List.mem_reverse.mpr hregion)
    simp at hne
  cases hline : region.reverse.dropWhile (· != '\n') with
  | nil =>
    have hne := List.dropWhile_eq_nil_iff.mp hline '\n' (List.mem_reverse.mpr hregion)
    simp at hne
  | cons c before =>
    have hlength : 2 ≤ (before ++ cs.reverse).length := by
      simp only [List.length_append, List.length_reverse]
      omega
    rw [upToLastLineEnd, hdrop, hline, List.cons_append]
    simp only [hlength, ↓reduceIte, List.reverse_append, List.reverse_reverse, List.drop_succ_cons,
      List.drop_zero]

theorem namesPart_append (hcs : ∀ c ∈ cs, isPlainChar c) (hrest : AtLineEnd rest)
    (hblank : ∀ c, cs.head? = some c → isBlank c) (hlength : 2 ≤ cs.length) :
    namesPart (cs ++ rest) = some (cs ++ takenAlong rest) := by
  obtain ⟨c, cs, rfl⟩ := List.exists_cons_of_length_pos (by omega : 0 < cs.length)
  obtain ⟨d, cs, rfl⟩ := List.exists_cons_of_length_pos (by simp at hlength; omega : 0 < cs.length)
  have hregion : (c :: d :: cs ++ rest).takeWhile isPlainChar =
      c :: d :: (cs ++ rest.takeWhile isPlainChar) := List.takeWhile_append_of_pos hcs
  rw [namesPart_of_region hregion, hblank c rfl, takenAlong]
  by_cases hwhole : (rest.takeWhile isPlainChar).length = rest.length
  · simp [hwhole]
  · have hline : '\n' ∈ rest.takeWhile isPlainChar := by
      cases rest with
      | nil => exact absurd rfl hwhole
      | cons x rest =>
        obtain rfl := hrest x rfl
        simp [isPlainChar]
    have htaken := upToLastLineEnd_append hlength hline
    simp only [List.cons_append] at htaken
    simp [hwhole, htaken]

theorem importLength?_of_isImportLine (hl : isImportLine l) (hrest : AtLineEnd rest) :
    importLength? (l ++ rest) = some (l.length + (takenAlong rest).length) := by
  obtain ⟨head, b, names, hhead, rfl, hb, hbs, hne, hstop, hplain⟩ := (isImportLine_iff l).mp hl
  have hafter : afterHead isModuleChar (head ++ (b ++ names) ++ rest) = some (b ++ names ++ rest) := by
    rw [afterHead_eq_some fun _ => not_isBlank_of_isModuleChar]
    exact ⟨head, isHead_mono (fun _ => isModuleChar_of_isNameChar) hhead, by simp⟩
  have hparts : namesPart (b ++ names ++ rest) = some (b ++ names ++ takenAlong rest) := by
    refine namesPart_append (fun c hc => ?_) hrest (fun c hc => ?_) ?_
    · rcases List.mem_append.mp hc with hc | hc
      · exact isPlainChar_of_isBlank (hbs c hc)
      · exact hplain c hc
    · exact head?_of_forall hb hbs hc
    · have hb' := List.length_pos_iff.mpr hb
      have hne' := List.length_pos_iff.mpr hne
      simp only [List.length_append]
      omega
  rw [importLength?_eq, hafter, Option.bind_some, hparts, Option.map_some]
  simp only [List.length_append]
  congr 1
  omega

/-! ## Blanks at the end -/

theorem rdropWhile_append (hb : ∀ c ∈ b, isBlank c) :
    (l ++ b).rdropWhile isBlank = l.rdropWhile isBlank := by
  have hreverse : ∀ c ∈ b.reverse, isBlank c := fun c hc => hb c (List.mem_reverse.mp hc)
  rw [List.rdropWhile, List.reverse_append, List.dropWhile_append_of_pos hreverse]
  rfl

theorem exists_blanks (l : List Char) :
    ∃ b, (∀ c ∈ b, isBlank c) ∧ l = l.rdropWhile isBlank ++ b := by
  refine ⟨(l.reverse.takeWhile isBlank).reverse, fun c hc => ?_, ?_⟩
  · exact List.all_eq_true.mp List.all_takeWhile c (List.mem_reverse.mp hc)
  · rw [List.rdropWhile, ← List.reverse_append, List.takeWhile_append_dropWhile,
      List.reverse_reverse]

theorem strip_of_head (hl : ∀ c, l.head? = some c → isBlank c = false) :
    strip (String.ofList l) = String.ofList (l.rdropWhile isBlank) := by
  have hdrop : l.dropWhile isBlank = l := by
    cases l with
    | nil => rfl
    | cons c l => simp [hl c rfl]
  simp [strip, hdrop, List.rdropWhile]

theorem isImportLine_append (hb : ∀ c ∈ b, isBlank c) :
    isImportLine (l ++ b) ↔ isImportLine l := by
  simp only [isImportLine_iff]
  constructor
  · rintro ⟨head, a, names, hhead, hl, ha, has, hne, hstop, hplain⟩
    obtain ⟨c, tail, rfl⟩ := List.exists_cons_of_ne_nil hne
    have hc : c ∉ b := by
      intro hc
      have hblank := hb c hc
      rw [hstop c rfl] at hblank
      cases hblank
    -- The names start with what is no blank, so all of the blanks stand after that.
    rw [← List.append_assoc] at hl
    rcases List.append_eq_append_iff.mp hl with ⟨d, -, rfl⟩ | ⟨d, rfl, hnames⟩
    · exact absurd (by simp) hc
    · cases d with
      | nil =>
        rw [List.nil_append] at hnames
        exact absurd (by simp [← hnames]) hc
      | cons x d =>
        obtain ⟨rfl, rfl⟩ := List.cons.inj hnames
        refine ⟨head, a, c :: d, hhead, by simp, ha, has, by simp, hstop, fun y hy => ?_⟩
        exact hplain y (by simp at hy ⊢; tauto)
  · rintro ⟨head, a, names, hhead, rfl, ha, has, hne, hstop, hplain⟩
    refine ⟨head, a, names ++ b, hhead, by simp, ha, has, by simp [hne], fun c hc => ?_, fun c hc => ?_⟩
    · obtain ⟨d, tail, rfl⟩ := List.exists_cons_of_ne_nil hne
      exact hstop c hc
    · rcases List.mem_append.mp hc with hc | hc
      · exact hplain c hc
      · exact isPlainChar_of_isBlank (hb c hc)

theorem isImportLine_rdropWhile (l : List Char) :
    isImportLine (l.rdropWhile isBlank) ↔ isImportLine l := by
  obtain ⟨b, hb, hl⟩ := exists_blanks l
  conv_rhs => rw [hl]
  exact (isImportLine_append hb).symm

/-- What comes after a line has nothing but blanks if the end of the line is the end of all but
blanks. -/
theorem isBlank_of_rdropWhile (hrest : AtLineEnd rest) (h : '\n' ∉ (l ++ rest).rdropWhile isBlank) :
    ∀ c ∈ rest, isBlank c := by
  obtain ⟨b, hb, hsplit⟩ := exists_blanks (l ++ rest)
  rcases List.append_eq_append_iff.mp hsplit with ⟨d, hd, rfl⟩ | ⟨d, -, rfl⟩
  · cases d with
    | nil => exact hb
    | cons x d =>
      obtain rfl := hrest x rfl
      rw [hd] at h
      exact absurd (by simp) h
  · exact fun c hc => hb c (by simp [hc])

/-! ## The scan, line by line -/

theorem scan_append (hl : '\n' ∉ l) : scan false 0 (l ++ rest) = scan false 0 rest := by
  induction l with
  | nil => rfl
  | cons c l ih =>
    have hc : (c == '\n') = false := by
      simp only [beq_eq_false_iff_ne]
      rintro rfl
      exact hl (by simp)
    rw [List.cons_append, scan]
    simp only [Bool.false_eq_true, ↓reduceIte, hc]
    exact ih fun h => hl (by simp [h])

theorem scan_of_none (h : importLength? cs = none) : scan true 0 cs = scan false 0 cs := by
  cases cs with
  | nil => rfl
  | cons c cs => simp only [scan, h, ↓reduceIte, Bool.false_eq_true]

theorem importLength?_of_head (h : cs.head? ≠ some 'f') : importLength? cs = none := by
  cases hn : importLength? cs with
  | none => rfl
  | some n =>
    obtain ⟨found, rest, rfl, -, hf, -⟩ := importLength?_eq_some hn
    exact absurd (by rw [List.head?_append, hf]; rfl) h

theorem scan_skip {lineStart : Bool} (h : AtLineEnd (cs.drop n)) :
    scan lineStart n cs = scan false 0 (cs.drop n) := by
  induction n generalizing lineStart cs with
  | zero =>
    cases lineStart with
    | false => rfl
    | true =>
      apply scan_of_none
      apply importLength?_of_head
      intro hf
      have hn := h 'f' hf
      simp at hn
  | succ n ih =>
    cases cs with
    | nil => rfl
    | cons c cs =>
      rw [scan]
      exact ih h

theorem scan_of_some {found : List Char} (h : importLength? (found ++ rest) = some found.length)
    (hf : found.head? = some 'f') (hrest : AtLineEnd rest) :
    scan true 0 (found ++ rest) =
      String.ofList (found.rdropWhile isBlank) :: scan false 0 rest := by
  obtain ⟨tail, rfl⟩ : ∃ tail, found = 'f' :: tail := List.head?_eq_some_iff.mp hf
  have hstrip : strip (String.ofList ('f' :: tail)) = String.ofList (('f' :: tail).rdropWhile isBlank) :=
    strip_of_head fun c hc => by cases hc; rfl
  have hdrop : (tail ++ rest).drop tail.length = rest := List.drop_left
  have hskip : scan false tail.length (tail ++ rest) = scan false 0 rest := by
    have hend : AtLineEnd ((tail ++ rest).drop tail.length) := hdrop.symm ▸ hrest
    rw [scan_skip hend, hdrop]
  rw [List.cons_append] at h ⊢
  simp only [scan, h, ↓reduceIte, List.length_cons, Nat.add_sub_cancel]
  rw [← List.cons_append, ← List.length_cons, List.take_left, hstrip]
  exact congrArg _ hskip

/-! ## The lines, one by one -/

theorem importsAt_cons (cs : List Char) (starts : List (List Char)) :
    importsAt (cs :: starts) = (if isImportLine (firstLine cs) then
      [strip (String.ofList (firstLine cs))] else []) ++ importsAt starts := by
  simp only [importsAt, List.map_cons, List.filter_cons]
  split <;> rfl

theorem later_append (hl : '\n' ∉ l) : lineStarts.later (l ++ rest) = lineStarts.later rest := by
  induction l with
  | nil => rfl
  | cons c l ih =>
    have hc : (c == '\n') = false := by
      simp only [beq_eq_false_iff_ne]
      rintro rfl
      exact hl (by simp)
    rw [List.cons_append, lineStarts.later, hc]
    exact ih fun h => hl (by simp [h])

theorem later_subset (l rest : List Char) :
    lineStarts.later rest ⊆ lineStarts.later (l ++ rest) := by
  intro d hd
  induction l with
  | nil => exact hd
  | cons c l ih =>
    rw [List.cons_append, lineStarts.later]
    split
    · exact List.mem_cons_of_mem _ ih
    · exact ih

theorem head?_of_isImportLine (h : isImportLine l) : l.head? = some 'f' := by
  obtain ⟨head, b, names, hhead, rfl, -⟩ := (isImportLine_iff l).mp h
  exact head?_of_isHead hhead (List.prefix_append _ _)

theorem strip_of_isImportLine (h : isImportLine l) :
    strip (String.ofList l) = String.ofList (l.rdropWhile isBlank) := by
  apply strip_of_head
  intro c hc
  obtain rfl : 'f' = c := Option.some.inj ((head?_of_isImportLine h).symm.trans hc)
  rfl

theorem isImportLine_of_head (h : cs.head? ≠ some 'f') : isImportLine (firstLine cs) = false := by
  cases hl : isImportLine (firstLine cs) with
  | false => rfl
  | true =>
    obtain ⟨head, b, names, hhead, hcs, -⟩ := (isImportLine_iff _).mp hl
    have hprefix : head <+: cs := by
      rw [← firstLine_append_afterLine cs, hcs, List.append_assoc]
      exact List.prefix_append _ _
    exact absurd (head?_of_isHead hhead hprefix) h

theorem head?_ne_of_blanks (hb : ∀ c ∈ b, isBlank c) (hrest : AtLineEnd rest) :
    (b ++ rest).head? ≠ some 'f' := by
  intro hf
  cases b with
  | nil => exact absurd (hrest 'f' hf) (by decide)
  | cons c b =>
    obtain rfl : c = 'f' := Option.some.inj hf
    exact absurd (hb 'f' (by simp)) (by decide)

theorem mem_later_append {d : List Char} (hb : ∀ c ∈ b, isBlank c) (hrest : AtLineEnd rest)
    (hd : d ∈ lineStarts.later (b ++ rest)) : d.head? ≠ some 'f' ∨ d ∈ lineStarts.later rest := by
  induction b with
  | nil => exact .inr hd
  | cons c b ih =>
    have hb' : ∀ x ∈ b, isBlank x := fun x hx => hb x (by simp [hx])
    rw [List.cons_append, lineStarts.later] at hd
    split at hd
    · rcases List.mem_cons.mp hd with rfl | hd
      · exact .inl (head?_ne_of_blanks hb' hrest)
      · exact ih hb' hd
    · exact ih hb' hd

theorem importsAt_later_append (hb : ∀ c ∈ b, isBlank c) (hrest : AtLineEnd rest) :
    importsAt (lineStarts.later (b ++ rest)) = importsAt (lineStarts.later rest) := by
  induction b with
  | nil => rfl
  | cons c b ih =>
    have hb' : ∀ x ∈ b, isBlank x := fun x hx => hb x (by simp [hx])
    rw [List.cons_append, lineStarts.later]
    split
    · have hline := isImportLine_of_head (head?_ne_of_blanks hb' hrest)
      rw [importsAt_cons, hline, ih hb']
      rfl
    · exact ih hb'

theorem isTidyAt_of_head (h : cs.head? ≠ some 'f') : isTidyAt cs := by
  simp [isTidyAt, isImportLine_of_head h, importLength?_of_head h]

theorem takenAlong_isPrefix (rest : List Char) : takenAlong rest <+: rest := by
  have hregion : rest.takeWhile isPlainChar <+: rest := List.takeWhile_prefix _
  simp only [takenAlong]
  split
  · exact hregion
  · refine List.IsPrefix.trans ?_ hregion
    rw [← List.reverse_suffix, List.reverse_reverse]
    exact (List.drop_suffix _ _).trans (List.dropWhile_suffix _)

theorem atLineEnd_of_isPrefix (hcs : AtLineEnd cs) (hb : b <+: cs) : AtLineEnd b := by
  obtain ⟨rest, rfl⟩ := hb
  intro c hc
  exact hcs c (by simp [List.head?_append, hc])

theorem firstLine_isPrefix (found : List Char) (hrest : AtLineEnd rest) :
    ∃ b, found = firstLine (found ++ rest) ++ b ∧ AtLineEnd b := by
  have hend := atLineEnd_afterLine (found ++ rest)
  have hno := notMem_firstLine (found ++ rest)
  rcases List.append_eq_append_iff.mp (firstLine_append_afterLine (found ++ rest)) with
    ⟨d, hd, hafter⟩ | ⟨d, hd, hafter⟩
  · exact ⟨d, hd, atLineEnd_of_isPrefix hend ⟨rest, hafter.symm⟩⟩
  · cases d with
    | nil => exact ⟨[], by simpa using hd.symm, by simp [AtLineEnd]⟩
    | cons c d =>
      obtain rfl := hrest c (by rw [hafter]; rfl)
      exact absurd (by rw [hd]; simp) hno

theorem scan_found (h : importLength? cs = some n) :
    ∃ b rest, cs = firstLine cs ++ (b ++ rest) ∧ AtLineEnd b ∧ AtLineEnd rest ∧
      n = (firstLine cs).length + b.length ∧
      scan true 0 cs = String.ofList ((firstLine cs ++ b).rdropWhile isBlank) ::
        scan false 0 rest := by
  obtain ⟨found, rest, rfl, rfl, hf, hrest⟩ := importLength?_eq_some h
  obtain ⟨b, hb, hend⟩ := firstLine_isPrefix found hrest
  have hscan := scan_of_some h hf hrest
  refine ⟨b, rest, ?_, hend, hrest, ?_, ?_⟩
  · rw [← List.append_assoc, ← hb]
  · rw [← List.length_append, ← hb]
  · rw [← hb]
    exact hscan

theorem scan_of_isImportLine (hl : isImportLine (firstLine cs)) :
    ∃ rest, cs = firstLine cs ++ (takenAlong (afterLine cs) ++ rest) ∧ AtLineEnd rest ∧
      scan true 0 cs =
        String.ofList ((firstLine cs ++ takenAlong (afterLine cs)).rdropWhile isBlank) ::
          scan false 0 rest := by
  have hn := importLength?_of_isImportLine hl (atLineEnd_afterLine cs)
  rw [firstLine_append_afterLine] at hn
  obtain ⟨b, rest, hcs, -, hrest, hlength, hscan⟩ := scan_found hn
  have hafter : afterLine cs = b ++ rest := by
    have hboth := (firstLine_append_afterLine cs).trans hcs
    exact List.append_cancel_left hboth
  obtain ⟨tail, htail⟩ := takenAlong_isPrefix (afterLine cs)
  have hb : takenAlong (afterLine cs) = b := by
    have hsplit := htail.trans hafter
    exact (List.append_inj hsplit (by omega)).1
  rw [hb]
  exact ⟨rest, hcs, hrest, hscan⟩

theorem scan_lineEnd (cs : List Char) : scan false 0 ('\n' :: cs) = scan true 0 cs := rfl

theorem later_lineEnd (cs : List Char) : lineStarts.later ('\n' :: cs) = lineStarts cs := rfl

theorem scan_eq_importsAt (h : ∀ d ∈ lineStarts cs, isTidyAt d) :
    scan true 0 cs = importsAt (lineStarts cs) := by
  induction hn : cs.length using Nat.strongRecOn generalizing cs with
  | ind n ih =>
    have hnext : ∀ rest, rest.length ≤ cs.length → AtLineEnd rest →
        (∀ d ∈ lineStarts.later rest, isTidyAt d) →
        scan false 0 rest = importsAt (lineStarts.later rest) := by
      intro rest hlength hrest htidy
      cases rest with
      | nil => rfl
      | cons c rest =>
        obtain rfl := hrest c rfl
        rw [scan_lineEnd, later_lineEnd]
        exact ih rest.length (by simp at hlength; omega) htidy rfl
    have hhere := h cs (by simp [lineStarts])
    have hlater : ∀ d ∈ lineStarts.later cs, isTidyAt d :=
      fun d hd => h d (by simp [lineStarts, hd])
    rw [lineStarts, importsAt_cons]
    cases hl : isImportLine (firstLine cs) with
    | true =>
      obtain ⟨rest, hcs, hrest, hscan⟩ := scan_of_isImportLine hl
      have hblank : ∀ c ∈ takenAlong (afterLine cs), isBlank c := by
        simpa [isTidyAt, hl] using hhere
      have hsame : lineStarts.later cs = lineStarts.later (takenAlong (afterLine cs) ++ rest) := by
        conv_lhs => rw [hcs]
        exact later_append (notMem_firstLine cs)
      have hrun := hnext rest (by rw [hcs]; simp; omega) hrest fun d hd =>
        hlater d (hsame ▸ later_subset _ rest hd)
      rw [hscan, rdropWhile_append hblank, hrun, hsame, importsAt_later_append hblank hrest,
        if_pos rfl, strip_of_isImportLine hl]
      rfl
    | false =>
      have hnone : importLength? cs = none := by
        simpa [isTidyAt, hl] using hhere
      have hsame : lineStarts.later (firstLine cs ++ afterLine cs) = _ :=
        later_append (notMem_firstLine cs)
      rw [firstLine_append_afterLine] at hsame
      have hrun := hnext (afterLine cs) (List.length_dropWhile_le _ _) (atLineEnd_afterLine cs)
        fun d hd => hlater d (hsame ▸ hd)
      rw [scan_of_none hnone, ← firstLine_append_afterLine cs, scan_append (notMem_firstLine cs), hrun,
        later_append (notMem_firstLine cs)]
      rfl

/-- The statement is a line of text that is an import. -/
def IsLine (s : String) : Prop :=
  ∃ l, isImportLine l = true ∧ '\n' ∉ l ∧ s = strip (String.ofList l)

theorem isLine_of_mem_importsAt {s : String} (h : s ∈ importsAt (lineStarts cs)) : IsLine s := by
  obtain ⟨l, hl, rfl⟩ := List.mem_map.mp h
  obtain ⟨hmem, himport⟩ := List.mem_filter.mp hl
  obtain ⟨d, -, rfl⟩ := List.mem_map.mp hmem
  exact ⟨_, himport, notMem_firstLine d, rfl⟩

theorem isImportLine_of_isLine (hb : AtLineEnd b)
    (h : IsLine (String.ofList ((l ++ b).rdropWhile isBlank))) :
    isImportLine l ∧ ∀ c ∈ b, isBlank c := by
  obtain ⟨l', hl', hno, heq⟩ := h
  rw [strip_of_isImportLine hl'] at heq
  have hsame : (l ++ b).rdropWhile isBlank = l'.rdropWhile isBlank := String.ofList_injective heq
  have hblank : ∀ c ∈ b, isBlank c := by
    apply isBlank_of_rdropWhile hb
    rw [hsame]
    exact fun hmem => hno (( List.rdropWhile_prefix _ _).subset hmem)
  rw [rdropWhile_append hblank] at hsame
  refine ⟨?_, hblank⟩
  rw [← isImportLine_rdropWhile, hsame, isImportLine_rdropWhile]
  exact hl'

theorem isTidyAt_of_scan (h : ∀ s ∈ scan true 0 cs, IsLine s) :
    ∀ d ∈ lineStarts cs, isTidyAt d := by
  induction hn : cs.length using Nat.strongRecOn generalizing cs with
  | ind n ih =>
    have hnext : ∀ rest, rest.length ≤ cs.length → AtLineEnd rest →
        (∀ s ∈ scan false 0 rest, IsLine s) → ∀ d ∈ lineStarts.later rest, isTidyAt d := by
      intro rest hlength hrest hscan
      cases rest with
      | nil => simp [lineStarts.later]
      | cons c rest =>
        obtain rfl := hrest c rfl
        rw [scan_lineEnd] at hscan
        rw [later_lineEnd]
        exact ih rest.length (by simp at hlength; omega) hscan rfl
    intro d hd
    cases hl : isImportLine (firstLine cs) with
    | true =>
      obtain ⟨rest, hcs, hrest, hscan⟩ := scan_of_isImportLine hl
      rw [hscan] at h
      have hend := atLineEnd_of_isPrefix (atLineEnd_afterLine cs) (takenAlong_isPrefix (afterLine cs))
      obtain ⟨-, hblank⟩ := isImportLine_of_isLine hend (h _ List.mem_cons_self)
      rcases List.mem_cons.mp hd with rfl | hd
      · simpa [isTidyAt, hl] using hblank
      · rw [hcs, later_append (notMem_firstLine cs)] at hd
        rcases mem_later_append hblank hrest hd with hhead | hd
        · exact isTidyAt_of_head hhead
        · exact hnext rest (by rw [hcs]; simp; omega) hrest (fun s hs => h s (by simp [hs])) d hd
    | false =>
      have hnone : importLength? cs = none := by
        cases hlen : importLength? cs with
        | none => rfl
        | some n =>
          obtain ⟨b, rest, -, hend, -, -, hscan⟩ := scan_found hlen
          rw [hscan] at h
          have hline := (isImportLine_of_isLine hend (h _ List.mem_cons_self)).1
          rw [hl] at hline
          cases hline
      rw [scan_of_none hnone, ← firstLine_append_afterLine cs,
        scan_append (notMem_firstLine cs)] at h
      rcases List.mem_cons.mp hd with rfl | hd
      · simp [isTidyAt, hl, hnone]
      · rw [← firstLine_append_afterLine cs, later_append (notMem_firstLine cs)] at hd
        exact hnext _ (List.length_dropWhile_le _ _) (atLineEnd_afterLine cs) h d hd

theorem eraseDups_importsIn_iff (text : String) :
    (importsIn text).eraseDups = (importLines text).eraseDups ↔ isTidy text := by
  rw [isTidy, List.all_eq_true]
  constructor
  · intro h
    apply isTidyAt_of_scan
    intro s hs
    have hmem : s ∈ (importLines text).eraseDups := by
      rw [← h]
      exact List.mem_eraseDups.mpr hs
    exact isLine_of_mem_importsAt (List.mem_eraseDups.mp hmem)
  · intro h
    exact congrArg List.eraseDups (scan_eq_importsAt h)

/-- The source phase takes up the statements that are found, each once and in order; and these are
the lines that are imports if and only if the text is in order. -/
theorem source_phase_imports {text : String} {p : Progress} (hp : p.Leaves (importsIn text))
    (hseen : p.seen = []) :
    transform .source (.str text) p =
      announced .source (.str text) ((importsIn text).eraseDups.foldlM takeUp (.str text)) p ∧
    (transform .source (.str text) p).2.seen <+: (importsIn text).eraseDups ∧
    ((transform .source (.str text) p).1.isOk = true →
      (transform .source (.str text) p).2.seen = (importsIn text).eraseDups) ∧
    ((importsIn text).eraseDups = (importLines text).eraseDups ↔ isTidy text = true) := by
  have heq := transform_source_eq hp hseen
  obtain ⟨p', hstart, hout, hend⟩ := announced_run .source (.str text)
    ((importsIn text).eraseDups.foldlM takeUp (.str text)) p
  obtain ⟨done, hdone, htaken, hok⟩ := seen_foldlM_takeUp
    (rfl : (importsIn text).eraseDups.foldlM takeUp (.str text) p' = _)
  rw [hstart, hseen, List.nil_append] at htaken
  rw [heq, hout, hend, htaken]
  exact ⟨rfl, hdone, hok, eraseDups_importsIn_iff text⟩

/-- A text with two imports, one above and one below a name. -/
def orderly (name : String) : String :=
  "from d import dialects, D\n\n(" ++ name ++ ")\nfrom d import dialects, D\n"

private theorem importsIn_orderly :
    importsIn (orderly "x") = ["from d import dialects, D", "from d import dialects, D"] ∧
      importsIn (orderly "y") = importsIn (orderly "x") := by
  decide +kernel

private theorem leaves_orderly :
    (withRewriting (orderly "y")).Leaves (importsIn (orderly "x")) := by
  refine ⟨fun m hm e he d hd => ?_, fun m hm => by cases hm⟩
  obtain rfl := List.mem_singleton.mp hm
  obtain rfl := List.mem_singleton.mp he
  cases hd
  intro f hf v r _ hr
  cases hf
  cases hr
  exact .inr ⟨_, rfl, importsIn_orderly.2⟩

/-- One import on two lines is taken up once, whatever becomes of the name in between. -/
theorem source_phase_imports_orderly :
    (withRewriting (orderly "y")).Leaves (importsIn (orderly "x")) ∧
      (withRewriting (orderly "y")).seen = [] ∧ isTidy (orderly "x") = true ∧
      (transform .source (.str (orderly "x")) (withRewriting (orderly "y"))).2.seen =
        ["from d import dialects, D"] := by
  have hlines : (importsIn (orderly "x")).eraseDups = ["from d import dialects, D"] := by
    rw [importsIn_orderly.1]
    decide
  have hok : (transform .source (.str (orderly "x")) (withRewriting (orderly "y"))).1.isOk = true := by
    decide +kernel
  obtain ⟨-, -, hall, -⟩ := source_phase_imports leaves_orderly rfl
  exact ⟨leaves_orderly, rfl, by decide +kernel, (hall hok).trans hlines⟩

/-- Of two imports on lines of their own, the second is taken for a part of the first. -/
theorem importsIn_adjacent :
    importLines "from d import dialects, D\nfrom e import dialects, E\n" =
      ["from d import dialects, D", "from e import dialects, E"] ∧
    importsIn "from d import dialects, D\nfrom e import dialects, E\n" =
      ["from d import dialects, D\nfrom e import dialects, E"] := by
  decide +kernel

end TreeMacros.Dialect
