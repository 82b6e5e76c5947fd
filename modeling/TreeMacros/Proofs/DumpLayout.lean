import Mathlib
import TreeMacros.Proofs.RoundTrip
import TreeMacros.Proofs.Writing

/-!
# The two layouts of dumps

A dump on several lines is the dump on one line once its lines are joined: only separators break a
line, and nothing else that is written starts with a blank.
-/

namespace TreeMacros

open Text (isBlank)

/-- Joins lines: a line break and the spaces after it become one space. Within such spaces, `skip`
is set. -/
def joinFrom (skip : Bool) : List Char → List Char
  | [] => []
  | c :: cs =>
    if c = '\n' then ' ' :: joinFrom true cs
    else if skip && c == ' ' then joinFrom true cs else c :: joinFrom false cs

def joinLines (text : String) : String := String.ofList (joinFrom false text.toList)

/-- The text becomes the line if its own lines are joined, whatever follows. -/
def Joins (text line : String) : Prop :=
  ∀ rest, joinFrom false (text.toList ++ rest) = line.toList ++ joinFrom false rest

/-- Some character is there first, and it is no blank. -/
def StartsFirm (text : String) : Prop := ∃ c cs, text.toList = c :: cs ∧ isBlank c = false

def isSolid (text : String) : Bool := !text.toList.isEmpty && text.toList.all (!isBlank ·)

structure LaidOut (text line : String) : Prop where
  joins : Joins text line
  text_firm : StartsFirm text
  line_firm : StartsFirm line

section

variable {a b c d sep sep' : String} {as bs : List String}

theorem joins_of_notMem (h : '\n' ∉ a.toList) : Joins a a := by
  intro rest
  revert h
  induction a.toList with
  | nil => exact fun _ => rfl
  | cons c cs ih =>
    intro h
    rw [List.mem_cons, not_or] at h
    simp [joinFrom, Ne.symm h.1, ih h.2]

theorem Joins.append (h : Joins a b) (h' : Joins c d) : Joins (a ++ c) (b ++ d) := by
  intro rest
  rw [String.toList_append, String.toList_append, List.append_assoc, h, h', List.append_assoc]

theorem StartsFirm.append (h : StartsFirm a) (b : String) : StartsFirm (a ++ b) := by
  obtain ⟨c, cs, ha, hc⟩ := h
  exact ⟨c, cs ++ b.toList, by simp [ha], hc⟩

theorem LaidOut.append (h : LaidOut a b) (h' : Joins c d) : LaidOut (a ++ c) (b ++ d) :=
  ⟨h.joins.append h', h.text_firm.append c, h.line_firm.append d⟩

theorem laidOut_of_notMem (hstart : StartsFirm a) (h : '\n' ∉ a.toList) : LaidOut a a :=
  ⟨joins_of_notMem h, hstart, hstart⟩

theorem laidOut_of_isSolid (h : isSolid a) : LaidOut a a := by
  obtain ⟨hnil, hall⟩ := Bool.and_eq_true_iff.mp h
  rw [List.all_eq_true] at hall
  apply laidOut_of_notMem
  · cases ha : a.toList with
    | nil => simp [ha] at hnil
    | cons c cs => exact ⟨c, cs, ha, by simpa using hall c (by simp [ha])⟩
  · intro hmem
    exact absurd (hall _ hmem) (by decide)

theorem stripStart_of_startsFirm (h : StartsFirm a) : Text.stripStart a = a := by
  obtain ⟨c, cs, ha, hc⟩ := h
  rw [Text.stripStart, ha, List.dropWhile_cons_of_neg (by simp [hc]), ← ha, String.ofList_toList]

theorem joins_intercalate (hsep : ∀ {a b}, LaidOut a b → Joins (sep ++ a) (sep' ++ b))
    (h : List.Forall₂ LaidOut as bs) : Joins (sep.intercalate as) (sep'.intercalate bs) := by
  have hcons {a b : String} {as bs : List String} (hab : LaidOut a b)
      (h : List.Forall₂ LaidOut as bs) :
      LaidOut (sep.intercalate (a :: as)) (sep'.intercalate (b :: bs)) := by
    induction h generalizing a b with
    | nil => simpa using hab
    | cons hcd _ ih =>
      rw [String.intercalate_cons_cons, String.intercalate_cons_cons, String.append_assoc,
        String.append_assoc]
      exact hab.append (hsep (ih hcd))
  cases h with
  | nil => exact fun _ => rfl
  | cons hab h => exact (hcons hab h).joins

theorem joins_separator {locations : Bool} {i : Nat} (h : LaidOut a b) :
    Joins (DumpStyle.separator ⟨locations, true⟩ i ++ a) (DumpStyle.separator ⟨locations, false⟩ i ++ b) := by
  have hskip (rest : List Char) : joinFrom true (a.toList ++ rest) = joinFrom false (a.toList ++ rest) := by
    obtain ⟨c, cs, ha, hc⟩ := h.text_firm
    have hspace : c ≠ ' ' := by
      rintro rfl
      exact absurd hc (by decide)
    simp [ha, joinFrom, hspace]
  have hspaces (n : Nat) (rest : List Char) :
      joinFrom true (List.replicate n ' ' ++ rest) = joinFrom true rest := by
    induction n with
    | zero => rfl
    | succ n ih => simpa [List.replicate_succ, joinFrom] using ih
  intro rest
  simp [DumpStyle.separator, joinFrom, hspaces, hskip]
  exact h.joins rest

end

/-! ## Written forms -/

namespace Text

theorem break_notMem_hex (width n : Nat) : '\n' ∉ (hex width n).toList :=
  notMem_hex (by decide) width n

theorem notMem_escapeChar {quote : Char} (hquote : '\n' ≠ quote) (c : Char) :
    '\n' ∉ (escapeChar quote c).toList := by
  by_cases hc : '\n' = c
  · subst hc
    simp [escapeChar, hquote]
  · unfold escapeChar
    split_ifs <;> simp [break_notMem_hex, hc]

theorem laidOut_enclosed {holds : Char → Bool} {parts : List String}
    (h : '\n' ≠ quoteFor holds → ∀ t ∈ parts, '\n' ∉ t.toList) :
    LaidOut ((quoteFor holds).toString ++ (String.join parts ++ (quoteFor holds).toString))
      ((quoteFor holds).toString ++ (String.join parts ++ (quoteFor holds).toString)) := by
  have hquote : '\n' ≠ quoteFor holds ∧ isBlank (quoteFor holds) = false := by
    unfold quoteFor
    split <;> decide
  apply laidOut_of_notMem
  · exact StartsFirm.append ⟨quoteFor holds, [], by simp, hquote.2⟩ _
  · simpa [hquote.1] using h hquote.1

theorem laidOut_quoted (s : String) : LaidOut (quoted s) (quoted s) := by
  rw [quoted, String.append_assoc]
  apply laidOut_enclosed
  intro hquote t ht
  obtain ⟨c, -, rfl⟩ := List.mem_map.mp ht
  exact notMem_escapeChar hquote c

theorem laidOut_quotedBytes (bs : List UInt8) : LaidOut (quotedBytes bs) (quotedBytes bs) := by
  rw [quotedBytes, String.append_assoc, String.append_assoc]
  refine (laidOut_of_isSolid rfl).append (laidOut_enclosed ?_).joins
  intro hquote t ht
  obtain ⟨b, -, rfl⟩ := List.mem_map.mp ht
  unfold escapeByte
  split
  · simp [break_notMem_hex]
  · exact notMem_escapeChar hquote _

end Text

namespace Value

variable {v : Value} {k : Kind} {as : Attrs} {locations : Bool}

/-- Numbers are written without blanks, and names without line breaks. -/
def isWritten : Value → Bool
  | float w | complex w => isSolid w
  | type name | function name => !name.toList.contains '\n'
  | _ => true

/-- A value is well written if what it is made of is. -/
inductive WellWritten : Value → Prop
  | of {v : Value} (hv : v.isWritten = true) (hheld : ∀ u ∈ v.held, WellWritten u) : WellWritten v

theorem laidOut_parenthesised {left right : String} {items : List String} (hleft : StartsFirm left)
    (hbreaks : '\n' ∉ left.toList ++ right.toList) (h : ∀ t ∈ items, LaidOut t t) :
    LaidOut (parenthesised left right items) (parenthesised left right items) := by
  rw [List.mem_append, not_or] at hbreaks
  have hcomma : Joins ", " ", " := joins_of_notMem (by decide)
  have hitems := joins_intercalate (fun h => hcomma.append h.joins) (List.forall₂_same.mpr h)
  exact ((laidOut_of_notMem hleft hbreaks.1).append hitems).append (joins_of_notMem hbreaks.2)

theorem reprs_eq (xs : List Value) : reprs xs = xs.map repr := by
  induction xs with
  | nil => rfl
  | cons x xs ih => rw [reprs, ih, List.map_cons]

theorem reprEntries_eq (es : List (Value × Value)) :
    reprEntries es = es.map fun e => e.1.repr ++ ": " ++ e.2.repr := by
  induction es with
  | nil => rfl
  | cons e es ih => rw [reprEntries, ih, List.map_cons]

theorem Kind.laidOut (k : Kind) {name : String}
    (h : name ∈ k.home :: k.typeName :: (k.fieldNames ++ Kind.locationNames)) : LaidOut name name := by
  have hall : (k.home :: k.typeName :: (k.fieldNames ++ Kind.locationNames)).all isSolid := by
    cases k <;> decide +kernel
  exact laidOut_of_isSolid (List.all_eq_true.mp hall name h)

theorem laidOut_nat (n : Nat) : LaidOut (toString n) (toString n) := by
  rw [Nat.toString_eq_ofList_toDigits]
  refine laidOut_of_isSolid (Bool.and_eq_true_iff.mpr ⟨by simp, List.all_eq_true.mpr fun c hc => ?_⟩)
  rw [String.toList_ofList] at hc
  have hdigit := Nat.isDigit_of_mem_toDigits (by decide) (by decide) hc
  rw [Source.isBlank_of_isWordChar (by simp [Reader.isWordChar, Char.isAlphanum, hdigit])]
  rfl

theorem laidOut_repr (h : WellWritten v) : LaidOut v.repr v.repr := by
  induction h with
  | @of v hv hheld ih =>
    have hreprs : ∀ t ∈ reprs v.held, LaidOut t t := by
      intro t ht
      rw [reprs_eq] at ht
      obtain ⟨u, hu, rfl⟩ := List.mem_map.mp ht
      exact ih u hu
    cases v with
    | none | ellipsis | notImplemented => exact laidOut_of_isSolid rfl
    | bool b => cases b <;> exact laidOut_of_isSolid rfl
    | int n =>
      cases n with
      | ofNat m => exact laidOut_nat m
      | negSucc m => exact (laidOut_of_isSolid rfl).append (laidOut_nat _).joins
    | float w | complex w => exact laidOut_of_isSolid hv
    | str s => exact Text.laidOut_quoted s
    | bytes bs => exact Text.laidOut_quotedBytes bs
    | list xs => exact laidOut_parenthesised ⟨_, _, rfl, rfl⟩ (by decide) hreprs
    | tuple xs =>
      match xs with
      | [x] =>
        exact ((laidOut_of_isSolid rfl).append (hreprs _ (by simp [held, reprs])).joins).append
          (joins_of_notMem (by decide))
      | [] | _ :: _ :: _ => exact laidOut_parenthesised ⟨_, _, rfl, rfl⟩ (by decide) hreprs
    | set xs =>
      cases xs with
      | nil => exact laidOut_of_isSolid rfl
      | cons => exact laidOut_parenthesised ⟨_, _, rfl, rfl⟩ (by decide) hreprs
    | frozenset xs =>
      cases xs with
      | nil => exact laidOut_of_isSolid rfl
      | cons =>
        exact ((laidOut_of_isSolid rfl).append
          (laidOut_parenthesised ⟨_, _, rfl, rfl⟩ (by decide) hreprs).joins).append
            (joins_of_notMem (by decide))
    | dict es =>
      refine laidOut_parenthesised ⟨_, _, rfl, rfl⟩ (by decide) fun t ht => ?_
      rw [reprEntries_eq] at ht
      obtain ⟨e, he, rfl⟩ := List.mem_map.mp ht
      have hkey := ih e.1 (List.mem_append_left _ (List.mem_map_of_mem he))
      have hvalue := ih e.2 (List.mem_append_right _ (List.mem_map_of_mem he))
      exact (hkey.append (joins_of_notMem (by decide))).append hvalue.joins
    | type name | function name =>
      have hname : '\n' ∉ name.toList := by simpa [isWritten] using hv
      exact ((laidOut_of_notMem ⟨_, _, rfl, rfl⟩ (by decide)).append (joins_of_notMem hname)).append
        (joins_of_notMem (by decide))
    | frozen v =>
      exact (laidOut_of_isSolid rfl).append (Text.laidOut_quoted _).joins
    | node k as =>
      have hhome := (Kind.laidOut k List.mem_cons_self).joins
      have hname := (Kind.laidOut k (List.mem_cons_of_mem _ List.mem_cons_self)).joins
      exact ((((laidOut_of_isSolid rfl).append hhome).append
        (joins_of_notMem (by decide))).append hname).append (joins_of_notMem (by decide))

/-! ## Dumps -/

theorem lookup_dumpAttrs (st : DumpStyle) (as : Attrs) (name : String) :
    (dumpAttrs st as).lookup name = (as.lookup name).map (dumpAt st) := by
  induction as with
  | nil => rfl
  | cons a as ih =>
    rw [dumpAttrs, List.lookup_cons, List.lookup_cons]
    cases name == a.1 with
    | true => rfl
    | false => exact ih

theorem dumpList_eq (st : DumpStyle) (xs : List Value) (i : Nat) :
    dumpList st xs i = xs.map (dumpAt st · i) := by
  induction xs with
  | nil => rfl
  | cons x xs ih => rw [dumpList, ih, List.map_cons]

theorem laidOut_dumpItems {items items' : List String} (h : List.Forall₂ LaidOut items items')
    (i : Nat) : LaidOut (dumpItems ⟨locations, true⟩ items i) (dumpItems ⟨locations, false⟩ items' i) := by
  cases h with
  | nil => exact laidOut_of_isSolid (show isSolid "[]" from rfl)
  | cons hfirst hrest =>
    rw [dumpItems, dumpItems, stripStart_of_startsFirm hfirst.text_firm,
      stripStart_of_startsFirm hfirst.line_firm, String.intercalate_cons_append,
      String.intercalate_cons_append]
    exact ((laidOut_of_isSolid rfl).append (joins_intercalate joins_separator (.cons hfirst hrest))).append
      (joins_of_notMem (by decide))

theorem laidOut_dumpAt (locations : Bool) (h : WellWritten v) (i : Nat) :
    LaidOut (v.dumpAt ⟨locations, true⟩ i) (v.dumpAt ⟨locations, false⟩ i) := by
  induction h generalizing i with
  | @of v hv hheld ih =>
    cases v with
    | node k as =>
      have hkind {n : String} (hn : n ∈ k.typeName :: (k.fieldNames ++ Kind.locationNames)) :=
        Kind.laidOut k (List.mem_cons_of_mem _ hn)
      refine (((hkind List.mem_cons_self).append (joins_of_notMem (by decide))).append
        (joins_intercalate joins_separator ?_)).append (joins_of_notMem (by decide))
      simp only [lookup_dumpAttrs, Option.isSome_map, List.forall₂_map_left_iff,
        List.forall₂_map_right_iff, List.forall₂_same]
      intro name hname
      have hlabel : LaidOut name name := by
        apply hkind
        simp only [List.mem_append, List.mem_map, List.mem_filter, List.mem_cons, Kind.fieldNames] at hname ⊢
        rcases hname with ⟨f, ⟨hf, -⟩, rfl⟩ | hplace
        · exact .inr (.inl ⟨f, hf, rfl⟩)
        · split at hplace
          · exact .inr (.inr hplace)
          · cases hplace
      refine (hlabel.append (joins_of_notMem (by decide))).append ?_
      cases hlookup : as.lookup name with
      | none => exact (laidOut_of_isSolid (show isSolid "None" from rfl)).joins
      | some u => exact (ih u (mem_held_of_get? hlookup) _).joins
    | list xs =>
      have hitems : List.Forall₂ LaidOut (dumpList ⟨locations, true⟩ xs (i + 1))
          (dumpList ⟨locations, false⟩ xs (i + 1)) := by
        rw [dumpList_eq, dumpList_eq, List.forall₂_map_left_iff, List.forall₂_map_right_iff,
          List.forall₂_same]
        exact fun x hx => ih x hx (i + 1)
      exact laidOut_dumpItems hitems i
    | _ => exact laidOut_repr (.of hv hheld)

end Value

end TreeMacros
