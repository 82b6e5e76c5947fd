import TreeMacros.Proofs.Lexemes
import TreeMacros.Proofs.Outline

/-!
# Writing expressions down

Which expressions can be written down, what is left of them without contexts and locations, and
what text the parts of a node are printed as.
-/

namespace TreeMacros

open Attrs (get?)
open Source

/-! ## Fields -/

/-- What a field holds; nothing if it is not set. -/
def Attrs.field (as : Attrs) (name : String) : Value := (get? as name).getD .none

namespace Kind

variable {k : Kind} {as : Attrs} {f : Field} {c : Content} {name : String}

theorem field_cases (h : k.conforms as) (hf : (f, c) ∈ k.fields.zip k.contents) :
    (∃ v, get? as f.name = some v ∧ c.admits v) ∨
      get? as f.name = none ∧ f.optional := by
  have hfield := List.all_eq_true.mp (Bool.and_eq_true_iff.mp h).2 _ hf
  cases hg : get? as f.name with
  | none => exact .inr ⟨rfl, by simpa [hg] using hfield⟩
  | some v => exact .inl ⟨v, rfl, by simpa [hg] using hfield⟩

theorem exists_content (h : k.conforms as) (hf : f ∈ k.fields) :
    ∃ c, (f, c) ∈ k.fields.zip k.contents := by
  have hcategory : k.category?.isSome :=
    (Bool.and_eq_true_iff.mp (Bool.and_eq_true_iff.mp h).1).1
  have hall : ∀ f ∈ k.fields, ∃ p ∈ k.fields.zip k.contents, p.1 = f := by
    revert hcategory
    cases k <;> decide
  obtain ⟨p, hp, rfl⟩ := hall f hf
  exact ⟨p.2, hp⟩

theorem optional_field {cat : Category} (h : k.conforms as)
    (hf : (Field.opt name, Content.optional cat) ∈ k.fields.zip k.contents) :
    Attrs.field as name = .none ∨ (Attrs.field as name).isOf cat := by
  rcases field_cases h hf with ⟨v, hv, hc⟩ | ⟨hv, -⟩
  · rw [Attrs.field, show get? as name = some v from hv]
    rcases Bool.or_eq_true_iff.mp hc with hc | hc
    · left
      cases v with
      | none => rfl
      | _ => cases hc
    · exact .inr hc
  · rw [Attrs.field, show get? as name = none from hv]
    exact .inl rfl

end Kind

/-! ## Writable expressions -/

namespace Value

def isIdentifier : Value → Bool
  | str s => Reader.isIdentifier s
  | _ => false

def isFlag : Value → Bool
  | int n => n == 0 || n == 1
  | _ => false

/-- Whether a constant and its kind can be written down: numbers without a sign, and a kind for
nothing but text. -/
def isConstant (v kind : Value) : Bool :=
  match v, kind with
  | str _, .none | .none, .none | bool _, .none | bytes _, .none | ellipsis, .none => true
  | str _, str u => u == "u"
  | v, .none => Reader.isNumber v
  | _, _ => false

end Value

def Attrs.items (as : Attrs) (name : String) : List Value :=
  match Attrs.field as name with
  | .list xs => xs
  | _ => []

namespace Kind

/-- Starred expressions stand among elements and arguments. -/
def holdsStarred (k : Kind) (name : String) : Bool :=
  ([list, tuple, set].contains k && name == "elts") || (k == call && name == "args")

/-- Whether a node of an expression, with what it holds, can be written down, apart from functions
without a name and formatted strings. -/
def isWritable (k : Kind) (as : Attrs) : Bool :=
  k.fieldNames.all (fun name =>
      k.holdsStarred name || (Value.childrenAt as name).all (!·.isKind .starred)) &&
    match k with
    | lambda | formattedValue | joinedStr => false
    | .name => (Attrs.field as "id").isIdentifier
    | attributeRef => (Attrs.field as "attr").isIdentifier
    | keyword => (Attrs.field as "arg").isNone || (Attrs.field as "arg").isIdentifier
    | constant => (Attrs.field as "value").isConstant (Attrs.field as "kind")
    | boolOp => 2 ≤ (Attrs.items as "values").length
    | compare => !(Attrs.items as "ops").isEmpty &&
        (Attrs.items as "ops").length == (Attrs.items as "comparators").length
    | set => !(Attrs.items as "elts").isEmpty
    | listComp | setComp | generatorExp | dictComp => !(Attrs.items as "generators").isEmpty
    | dict => (Attrs.items as "keys").all (·.isNode) &&
        (Attrs.items as "keys").length == (Attrs.items as "values").length
    | comprehension => (Attrs.field as "is_async").isFlag
    | extSlice => 2 ≤ (Attrs.items as "dims").length &&
        (Attrs.items as "dims").all (!·.isKind .extSlice)
    | _ => true

end Kind

def Value.isExpression (v : Value) : Bool :=
  v.wellFormed && v.isOf .expr && !v.isKind .starred && v.throughout (fun _ => true) Kind.isWritable

/-! ## Views -/

theorem Attrs.items_eq {as : Attrs} {name : String} {xs : List Value}
    (h : Attrs.field as name = .list xs) : Attrs.items as name = xs := by
  rw [Attrs.items, h]

namespace Value

theorem isKind_of_isOf {c : Category} {k : Kind}
    (hk : ∀ l : Kind, l.category? = some c → l = k) {v : Value} (h : v.isOf c) :
    v.isKind k := by
  obtain ⟨l, as, rfl, hl⟩ := exists_of_isOf h
  rw [hk l hl]
  simp [isKind, kind?]

/-- The tree apart from contexts and locations. -/
def view (v : Value) : Value := v.outline (· != "ctx")

variable {k : Kind} {as : Attrs}

theorem view_node (h : k.conforms as) :
    (node k as).view = node k ((k.fields.filter (·.name != "ctx")).map fun f =>
      (f.name, (Attrs.field as f.name).view)) := by
  rw [view, outline_node, outlineAttrs, ← List.filterMap_eq_map, List.filterMap_filter]
  congr 1
  refine List.filterMap_congr fun f hf => ?_
  obtain ⟨c, hc⟩ := Kind.exists_content h hf
  unfold outlineAt field? Attrs.field
  rcases Kind.field_cases h hc with ⟨v, hv, -⟩ | ⟨hv, hoptional⟩ <;>
    by_cases hctx : f.name = "ctx" <;> simp [*, view]

theorem view_list (xs : List Value) : (list xs).view = list (xs.map view) := outline_list xs

theorem view_of_fields_nil (h : k.fields = []) : (node k as).view = node k [] := by
  rw [view, outline_node, outlineAttrs, h]
  rfl

end Value

/-! ## Printed text -/

namespace Source

def subject (k : Kind) (as : Attrs) : Subject :=
  ⟨k, .node k as, Value.foldAttrs (fun k as parts => Subject.print ⟨k, .node k as, parts, false⟩)
    (fun v items _ manner indent =>
      match v, manner with
      | .list _, .plain => each items (PrintItem.print · .plain indent)
      | v, m => printLeaf v m indent) as, false⟩

def printPart : Value → PrintPart :=
  Value.foldPart (fun k as parts => Subject.print ⟨k, .node k as, parts, false⟩)
    (fun v items _ manner indent =>
      match v, manner with
      | .list _, .plain => each items (PrintItem.print · .plain indent)
      | v, m => printLeaf v m indent)

theorem print_node (k : Kind) (as : Attrs) (i : Nat) :
    print false (.node k as) .plain i = (subject k as).plain i := rfl

theorem kind_subject (k : Kind) (as : Attrs) : (subject k as).kind = k := rfl

theorem print_printPart (v : Value) (i : Nat) :
    (printPart v).print .plain i = print false v .plain i := rfl

theorem value_printPart (v : Value) : (printPart v).value = v := by
  cases v <;> rfl

theorem elements_printPart (xs : List Value) :
    (printPart (.list xs)).elements = .ok (xs.map fun v => ⟨v, print false v⟩) := by
  have hitems : (printPart (.list xs)).items = xs.map fun v => ⟨v, print false v⟩ :=
    Value.foldItems_eq _ _ xs
  rw [← hitems]
  rfl

theorem length_printPart (xs : List Value) : (printPart (.list xs)).length = .ok xs.length := by
  have hitems : (printPart (.list xs)).items = xs.map fun v => ⟨v, print false v⟩ :=
    Value.foldItems_eq _ _ xs
  have hlength := congrArg List.length hitems
  rw [List.length_map] at hlength
  exact congrArg Except.ok hlength

theorem printPart_none : printPart .none = emptyPart := by
  have hresult : (printPart .none).result = printLeaf .none := by
    funext m i
    cases m <;> rfl
  exact congrArg (fun r => (⟨.none, r, [], []⟩ : PrintPart)) hresult

variable {k : Kind} {as : Attrs} {name : String}

theorem part?_of_conforms (h : k.conforms as) (hname : name ∈ k.fieldNames) :
    (subject k as).part? name = some (printPart (Attrs.field as name)) := by
  obtain ⟨f, hf, rfl⟩ := List.mem_map.mp hname
  obtain ⟨c, hc⟩ := Kind.exists_content h hf
  have hlookup : (subject k as).parts.lookup f.name =
      (get? as f.name).map printPart := Value.lookup_foldAttrs _ _ as f.name
  rw [Subject.part?, hlookup, Attrs.field]
  rcases Kind.field_cases h hc with ⟨v, hv, -⟩ | ⟨hv, hoptional⟩
  · rw [hv]
    rfl
  · have hdefault : (subject k as).kind.default? f.name :=
      (Kind.default?_of_mem hf).trans hoptional
    rw [hv, Option.map_none, if_pos hdefault, Option.getD_none, printPart_none]

theorem part_of_conforms (h : k.conforms as) (hname : name ∈ k.fieldNames) :
    (subject k as).part name = .ok (printPart (Attrs.field as name)) := by
  rw [Subject.part, part?_of_conforms h hname]

theorem child_of_conforms (h : k.conforms as) (hname : name ∈ k.fieldNames) (i : Nat) :
    (subject k as).child name i = print false (Attrs.field as name) .plain i := by
  rw [Subject.child, part_of_conforms h hname]
  rfl

def written (v : Value) : String := (print false v .plain 0).toOption.getD ""

/-- The value has a text, which does not depend on its place. -/
def IsPrinted (v : Value) : Prop := ∀ i, print false v .plain i = .ok (written v)

theorem isPrinted_of {v : Value} {s : String} (h : ∀ i, print false v .plain i = .ok s) :
    IsPrinted v ∧ written v = s := by
  have hs : written v = s := by
    rw [written, h 0]
    rfl
  exact ⟨fun i => (h i).trans (by rw [hs]), hs⟩

/-! ## Text without blanks around it -/

/-- The text neither starts nor ends with a blank. -/
def Firm (cs : List Char) : Prop :=
  (∃ c ∈ cs.head?, Text.isBlank c = false) ∧ ∃ c ∈ cs.getLast?, Text.isBlank c = false

theorem strip_of_firm {s : String} (h : Firm s.toList) : Text.strip s = s := by
  obtain ⟨⟨c, hc, hfirst⟩, d, hd, hlast⟩ := h
  obtain ⟨cs, hcs⟩ := List.head?_eq_some_iff.mp hc
  obtain ⟨ds, hds⟩ := List.getLast?_eq_some_iff.mp hd
  have hstart : s.toList.dropWhile Text.isBlank = s.toList := by
    rw [hcs, List.dropWhile_cons_of_neg (by simp [hfirst])]
  have hend : s.toList.reverse.dropWhile Text.isBlank = s.toList.reverse := by
    rw [hds, List.reverse_append, List.reverse_singleton, List.singleton_append,
      List.dropWhile_cons_of_neg (by simp [hlast])]
  rw [Text.strip, hstart, hend, List.reverse_reverse, String.ofList_toList]

theorem firm_enclosed {c d : Char} (hc : Text.isBlank c = false) (hd : Text.isBlank d = false)
    (cs : List Char) : Firm (c :: (cs ++ [d])) := by
  refine ⟨⟨c, rfl, hc⟩, d, ?_, hd⟩
  rw [← List.cons_append, List.getLast?_concat]
  rfl

theorem Firm.append {cs ds : List Char} (h : Firm cs)
    (hd : ∃ c ∈ ds.getLast?, Text.isBlank c = false) : Firm (cs ++ ds) := by
  obtain ⟨⟨c, hc, hfirst⟩, -⟩ := h
  obtain ⟨d, hd, hlast⟩ := hd
  refine ⟨⟨c, ?_, hfirst⟩, d, ?_, hlast⟩
  · rw [List.head?_append, hc]
    rfl
  · rw [List.getLast?_append, hd]
    rfl

theorem firm_of_forall {cs : List Char} (hne : cs ≠ []) (h : ∀ c ∈ cs, Text.isBlank c = false) :
    Firm cs :=
  ⟨⟨cs.head hne, List.head?_eq_some_head hne, h _ (List.head_mem hne)⟩,
    cs.getLast hne, List.getLast?_eq_some_getLast hne, h _ (List.getLast_mem hne)⟩

theorem isBlank_of_isWordChar {c : Char} (h : Reader.isWordChar c) :
    Text.isBlank c = false := by
  simp only [Reader.isWordChar, Bool.or_eq_true, Bool.and_eq_true, Bool.not_eq_true'] at h
  rcases h with (h | h) | h
  · simp only [Char.isAlphanum, Char.isAlpha, Char.isUpper, Char.isLower, Char.isDigit,
      Bool.or_eq_true, Bool.and_eq_true, decide_eq_true_eq, ge_iff_le,
      UInt32.le_iff_toNat_le] at h
    simp only [Text.isBlank, Bool.or_eq_false_iff, Bool.and_eq_false_iff, decide_eq_false_iff_not,
      beq_eq_false_iff_ne]
    simp only [Char.toNat_val, Char.reduceToNat] at h
    omega
  · rw [eq_of_beq h]
    rfl
  · exact h.2

end Source

end TreeMacros
