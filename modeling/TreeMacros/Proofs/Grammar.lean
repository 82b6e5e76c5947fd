import TreeMacros.Proofs.Children

/-!
# Well-formed trees

What the grammar lets each field hold. A tree is well-formed if every node that a walk meets is of
a kind that the grammar produces, has its required fields set, holds in each field what belongs
there, and has no other attributes than fields and a place in the source text.
-/

namespace TreeMacros

variable {name : String} {c : Category} {v : Value}

/-- The nonterminals of the grammar. -/
inductive Category where
  | mod | stmt | expr | context | slice | boolOperator | operator | unaryOperator | comparison
  | comprehension | handler | arguments | arg | keyword | importAlias | withItem | typeIgnore
  deriving DecidableEq, Repr

/-- What a field holds: nodes of a category, or constants. A sparse list has gaps. -/
inductive Content where
  | one (c : Category)
  | optional (c : Category)
  | many (c : Category)
  | sparse (c : Category)
  | text | optionalText | texts | number | optionalNumber | literal
  deriving DecidableEq, Repr

namespace Kind

/-- The category that a kind of node belongs to. The older literal nodes, patterns and markers
belong to none. -/
def category? : Kind → Option Category
  | .module | .interactive | .expression | .functionType => some .mod
  | .functionDef | .asyncFunctionDef | .classDef | .returnStmt | .delete | .assign | .augAssign
  | .annAssign | .forStmt | .asyncFor | .whileStmt | .ifStmt | .withStmt | .asyncWith | .raiseStmt
  | .tryStmt | .assertStmt | .importStmt | .importFrom | .globalStmt | .nonlocalStmt | .exprStmt
  | .passStmt | .breakStmt | .continueStmt => some .stmt
  | .boolOp | .namedExpr | .binOp | .unaryOp | .lambda | .ifExp | .dict | .set | .listComp
  | .setComp | .generatorExp | .dictComp | .await | .yield | .yieldFrom | .compare | .call
  | .formattedValue | .joinedStr | .constant | .attributeRef | .subscript | .starred | .name
  | .list | .tuple => some .expr
  | .slice | .index | .extSlice => some .slice
  | .load | .store | .del | .param => some .context
  | .andOp | .orOp => some .boolOperator
  | .add | .sub | .mult | .matMult | .div | .mod | .pow | .lShift | .rShift | .bitOr | .bitXor
  | .bitAnd | .floorDiv => some .operator
  | .invert | .notOp | .uAdd | .uSub => some .unaryOperator
  | .eq | .notEq | .lt | .ltE | .gt | .gtE | .is | .isNot | .isIn | .notIn => some .comparison
  | .comprehension => some .comprehension
  | .exceptHandler => some .handler
  | .arguments => some .arguments
  | .arg => some .arg
  | .keyword => some .keyword
  | .importAlias => some .importAlias
  | .withItem => some .withItem
  | .typeIgnore => some .typeIgnore
  | _ => none

/-- What the fields of a kind of node hold, in the order of its fields. -/
def contents : Kind → List Content
  | .module => [.many .stmt, .many .typeIgnore]
  | .interactive => [.many .stmt]
  | .expression => [.one .expr]
  | .functionType => [.many .expr, .one .expr]
  | .functionDef | .asyncFunctionDef =>
    [.text, .one .arguments, .many .stmt, .many .expr, .optional .expr, .optionalText]
  | .classDef => [.text, .many .expr, .many .keyword, .many .stmt, .many .expr]
  | .returnStmt | .yield => [.optional .expr]
  | .delete | .set | .joinedStr => [.many .expr]
  | .assign => [.many .expr, .one .expr, .optionalText]
  | .augAssign => [.one .expr, .one .operator, .one .expr]
  | .annAssign => [.one .expr, .one .expr, .optional .expr, .number]
  | .forStmt | .asyncFor => [.one .expr, .one .expr, .many .stmt, .many .stmt, .optionalText]
  | .whileStmt | .ifStmt => [.one .expr, .many .stmt, .many .stmt]
  | .withStmt | .asyncWith => [.many .withItem, .many .stmt, .optionalText]
  | .raiseStmt => [.optional .expr, .optional .expr]
  | .tryStmt => [.many .stmt, .many .handler, .many .stmt, .many .stmt]
  | .assertStmt | .withItem => [.one .expr, .optional .expr]
  | .importStmt => [.many .importAlias]
  | .importFrom => [.optionalText, .many .importAlias, .optionalNumber]
  | .globalStmt | .nonlocalStmt => [.texts]
  | .exprStmt | .await | .yieldFrom | .index => [.one .expr]
  | .boolOp => [.one .boolOperator, .many .expr]
  | .namedExpr => [.one .expr, .one .expr]
  | .binOp => [.one .expr, .one .operator, .one .expr]
  | .unaryOp => [.one .unaryOperator, .one .expr]
  | .lambda => [.one .arguments, .one .expr]
  | .ifExp => [.one .expr, .one .expr, .one .expr]
  | .dict => [.sparse .expr, .many .expr]
  | .listComp | .setComp | .generatorExp => [.one .expr, .many .comprehension]
  | .dictComp => [.one .expr, .one .expr, .many .comprehension]
  | .compare => [.one .expr, .many .comparison, .many .expr]
  | .call => [.one .expr, .many .expr, .many .keyword]
  | .formattedValue => [.one .expr, .optionalNumber, .optional .expr]
  | .constant => [.literal, .optionalText]
  | .attributeRef => [.one .expr, .text, .one .context]
  | .subscript => [.one .expr, .one .slice, .one .context]
  | .starred => [.one .expr, .one .context]
  | .name => [.text, .one .context]
  | .list | .tuple => [.many .expr, .one .context]
  | .slice => [.optional .expr, .optional .expr, .optional .expr]
  | .extSlice => [.many .slice]
  | .comprehension => [.one .expr, .one .expr, .many .expr, .number]
  | .exceptHandler => [.optional .expr, .optionalText, .many .stmt]
  | .arguments => [.many .arg, .many .arg, .optional .arg, .many .arg, .sparse .expr, .optional .arg,
      .many .expr]
  | .arg => [.text, .optional .expr, .optionalText]
  | .keyword => [.optionalText, .one .expr]
  | .importAlias => [.text, .optionalText]
  | .typeIgnore => [.number, .text]
  | _ => []

example (k : Kind) : k.category?.isSome → k.contents.length = k.fields.length := by
  cases k <;> decide

end Kind

namespace Value

def isOf (c : Category) (v : Value) : Bool := v.kind?.bind Kind.category? == some c

def isText : Value → Bool
  | str _ => true
  | _ => false

/-- The constants that can be written in source text, and tuples and frozen sets of them. -/
def isLiteral : Value → Bool :=
  fold (fun _ _ _ => false) fun v items _ =>
    match v with
    | none | bool _ | int _ | float _ | complex _ | str _ | bytes _ | ellipsis => true
    | tuple _ | frozenset _ => items.all (·.result)
    | _ => false

end Value

open Value in
def Content.admits : Content → Value → Bool
  | one c, v => v.isOf c
  | optional c, v => v.isNone || v.isOf c
  | many c, list xs => xs.all (·.isOf c)
  | sparse c, list xs => xs.all fun x => x.isNone || x.isOf c
  | text, v => v.isText
  | optionalText, v => v.isNone || v.isText
  | texts, list xs => xs.all (·.isText)
  | number, int _ | optionalNumber, int _ | optionalNumber, .none => true
  | literal, v => v.isLiteral
  | _, _ => false

namespace Kind

/-- Whether nodes of this kind have an attribute of this name. Labels are not in the way. -/
def allows (k : Kind) (name : String) : Bool :=
  Attrs.isHidden name || k.hasField name || (k.located && locationNames.contains name)

/-- The local condition: what stands at one node is as the grammar says. -/
def conforms (k : Kind) (as : Attrs) : Bool :=
  k.category?.isSome && as.all (fun a => k.allows a.1) &&
    (k.fields.zip k.contents).all fun (f, c) =>
      match Attrs.get? as f.name with
      | some v => c.admits v
      | none => f.optional

end Kind

def Value.wellFormed (v : Value) : Bool := v.isNode && v.throughout (fun _ => true) Kind.conforms

namespace Value

@[simp] theorem isNone_unlabelled (v : Value) : v.unlabelled.isNone = v.isNone := by
  cases v <;> simp [unlabelled, isNone]

@[simp] theorem isOf_unlabelled (c : Category) (v : Value) : v.unlabelled.isOf c = v.isOf c := by
  rw [isOf, isOf, kind?_unlabelled]

@[simp] theorem isText_unlabelled (v : Value) : v.unlabelled.isText = v.isText := by
  cases v <;> simp [unlabelled, isText]

@[simp] theorem isLiteral_unlabelled (v : Value) : v.unlabelled.isLiteral = v.isLiteral := by
  cases v with
  | node | list => simp only [unlabelled]; rfl
  | _ => rw [unlabelled_other rfl rfl]

end Value

theorem Content.admits_unlabelled (c : Content) (v : Value) :
    c.admits v.unlabelled = c.admits v := by
  cases c with
  | one | optional | text | optionalText | literal => simp [admits]
  | many | sparse | texts =>
    cases v with
    | list xs => simp [Value.unlabelled, Value.unlabelledItems_eq, admits, Function.comp_def]
    | _ => simp [Value.unlabelled, admits]
  | number | optionalNumber => cases v <;> simp [Value.unlabelled, admits]

namespace Kind

theorem conforms_unlabelledAttrs (k : Kind) (as : Attrs) :
    k.conforms (Value.unlabelledAttrs as) = k.conforms as := by
  have hallows : (Value.unlabelledAttrs as).all (fun a => k.allows a.1) =
      as.all fun a => k.allows a.1 := by
    induction as with
    | nil => rfl
    | cons a as ih =>
      have hself (h : Attrs.isHidden a.1) : k.allows a.1 := by simp [allows, h]
      rw [Value.unlabelledAttrs_cons]
      by_cases h : Attrs.isHidden a.1 <;> simp [h, ih, hself]
  unfold conforms
  rw [hallows]
  congr 1
  rw [Bool.eq_iff_iff, List.all_eq_true, List.all_eq_true]
  refine forall₂_congr fun (f, c) hfc => ?_
  have hf : f.name ∈ k.fieldNames := List.mem_map_of_mem (List.of_mem_zip hfc).1
  simp only [Value.get?_unlabelledAttrs (isHidden_of_mem hf)]
  cases Attrs.get? as f.name with
  | none => rfl
  | some v => simp [Content.admits_unlabelled]

variable {k : Kind} {as : Attrs}

theorem exists_of_conforms (h : k.conforms as) (name : String) (c : Content)
    (hf : (Field.req name, c) ∈ k.fields.zip k.contents) :
    ∃ v, Attrs.get? as name = some v ∧ c.admits v := by
  have hfield := List.all_eq_true.mp (Bool.and_eq_true_iff.mp h).2 _ hf
  cases hg : Attrs.get? as name with
  | none => simp [Field.req, hg] at hfield
  | some v => exact ⟨v, rfl, by simpa [Field.req, hg] using hfield⟩

theorem get?_eq_none_of_conforms (h : k.conforms as) (hn : k.allows name = false) :
    Attrs.get? as name = none := by
  cases hg : Attrs.get? as name with
  | none => rfl
  | some v =>
    have hall := (Bool.and_eq_true_iff.mp (Bool.and_eq_true_iff.mp h).1).2
    have := List.all_eq_true.mp hall _ (Attrs.mem_of_get? hg)
    simp [hn] at this

end Kind

namespace Value

theorem exists_of_isOf (h : v.isOf c) : ∃ k as, v = node k as ∧ k.category? = some c := by
  cases v with
  | node k as => exact ⟨k, as, rfl, by simpa [isOf, kind?] using h⟩
  | _ => simp [isOf, kind?] at h

theorem isNode_of_isOf (h : v.isOf c) : v.isNode := by
  obtain ⟨k, as, rfl, -⟩ := exists_of_isOf h
  rfl

theorem exists_of_admits_many (h : (Content.many c).admits v) :
    ∃ xs, v = list xs ∧ ∀ x ∈ xs, x.isOf c := by
  cases v with
  | list xs => exact ⟨xs, rfl, by simpa [Content.admits] using h⟩
  | _ => simp [Content.admits] at h

theorem exists_of_isText (h : v.isText) : ∃ s, v = str s := by
  cases v with
  | str s => exact ⟨s, rfl⟩
  | _ => cases h

end Value

end TreeMacros
