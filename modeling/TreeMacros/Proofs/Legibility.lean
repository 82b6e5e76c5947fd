import TreeMacros.Proofs.Spelling
import TreeMacros.Proofs.Writing

/-!
# Legible operations and displays

A node is legible if its text is read as the node. Operations and displays are, if what they hold
is.
-/

namespace TreeMacros

open Value hiding none set
open Attrs (field get? items items_eq)

variable {v : Value} {name : String} {xs : List Value} {k : Kind}

/-! ## Legible nodes -/

namespace Source

open Reader

/-- The text of an expression is read as the expression. -/
structure IsExpression (v : Value) : Prop where
  printed : IsPrinted v
  firm : Firm (written v).toList
  spells : ∀ n, sizeOf v ≤ n → Spells n (written v).toList v.view

/-- The text of a part of an expression is read as that part, which may depend on the part. -/
structure IsPart (R : Nat → List Char → Value → Prop) (v : Value) : Prop where
  printed : IsPrinted v
  reads : ∀ n, sizeOf v < n → R n (written v).toList v.view

def ShowsSlice (n : Nat) (text : List Char) (v : Value) : Prop :=
  ∀ rest, suffix (expr n) ('[' :: (text ++ ']' :: rest)) =
    some (fun x => .node .subscript [("value", x), ("slice", v)], rest)

/-- Each node of an expression is read from its text, in the way of its kind. -/
structure Legible (v : Value) : Prop where
  expression : v.isOf .expr = true → v.isKind .starred = false → IsExpression v
  starred : v.isKind .starred = true → IsPart (fun n => Shows (element (expr n))) v
  keyword : v.isKind .keyword = true →
    IsPart (fun n text x => ShowsPart (argument (expr n)) ')' text (.inr x)) v
  clause : v.isKind .comprehension = true → IsPart ShowsClause v
  dimension : v.isOf .slice = true → v.isKind .extSlice = false →
    IsPart (fun n => ShowsPart (Reader.dimension (expr n)) ']') v
  slice : v.isOf .slice = true → IsPart ShowsSlice v

theorem IsExpression.shows {v : Value} (h : IsExpression v) :
    IsPart (fun n => Shows (expr n)) v := by
  refine ⟨h.printed, fun n hn => ?_⟩
  have hspells := h.spells (n - 1) (by omega)
  have hshows := hspells.shows
  rwa [Nat.sub_add_cancel (by omega)] at hshows

theorem IsPart.mono {R S : Nat → List Char → Value → Prop} (h : IsPart R v)
    (hRS : ∀ n text x, R n text x → S n text x) : IsPart S v :=
  ⟨h.printed, fun n hn => hRS _ _ _ (h.reads n hn)⟩

/-- What is known about a node when its children are legible. -/
structure Ready (k : Kind) (as : Attrs) : Prop where
  wellFormed : (node k as).throughout (fun _ => true) Kind.conforms = true
  writable : k.isWritable as = true
  legible : ∀ u ∈ children k as, Legible u

namespace Ready

variable {k : Kind} {as : Attrs} {c : Category}

theorem conforms (h : Ready k as) : k.conforms as :=
  (throughout_node.mp h.wellFormed).1

theorem one (h : Ready k as) (name : String)
    (hf : (Field.req name, Content.one c) ∈ k.fields.zip k.contents) :
    (field as name).isOf c ∧ field as name ∈ childrenAt as name := by
  obtain ⟨v, hv, hc⟩ := Kind.exists_of_conforms h.conforms _ _ hf
  obtain ⟨kv, avs, rfl, -⟩ := exists_of_isOf hc
  have hfield : field as name = .node kv avs := by
    rw [field, hv]
    rfl
  rw [hfield]
  exact ⟨hc, mem_childrenAt.mpr ⟨rfl, .inl hv⟩⟩

theorem many (h : Ready k as) (name : String)
    (hf : (Field.req name, Content.many c) ∈ k.fields.zip k.contents) :
    ∃ xs, field as name = .list xs ∧
      ∀ x ∈ xs, x.isOf c ∧ x ∈ childrenAt as name := by
  obtain ⟨v, hv, hc⟩ := Kind.exists_of_conforms h.conforms _ _ hf
  obtain ⟨xs, rfl, hxs⟩ := exists_of_admits_many hc
  refine ⟨xs, by rw [field, hv]; rfl, fun x hx => ⟨hxs x hx, ?_⟩⟩
  obtain ⟨kx, axs, rfl, -⟩ := exists_of_isOf (hxs x hx)
  exact mem_childrenAt.mpr ⟨rfl, .inr ⟨xs, hv, hx⟩⟩

theorem child (h : Ready k as) (hname : name ∈ k.fieldNames) {u : Value}
    (hu : u ∈ childrenAt as name) : Legible u ∧ sizeOf u < sizeOf (node k as) := by
  have hchild := mem_children.mpr ⟨name, hname, hu⟩
  exact ⟨h.legible u hchild, sizeOf_lt_of_mem_children hchild⟩

theorem isKind_starred (h : Ready k as) (hname : name ∈ k.fieldNames)
    (hs : k.holdsStarred name = false) {u : Value} (hu : u ∈ childrenAt as name) :
    u.isKind .starred = false := by
  have hall := List.all_eq_true.mp (Bool.and_eq_true_iff.mp h.writable).1 name hname
  rw [hs, Bool.false_or, List.all_eq_true] at hall
  simpa using hall u hu

theorem expression (h : Ready k as) (name : String)
    (hf : (Field.req name, Content.one .expr) ∈ k.fields.zip k.contents)
    (hs : k.holdsStarred name = false) :
    IsExpression (field as name) ∧
      sizeOf (field as name) < sizeOf (node k as) := by
  have hname : name ∈ k.fieldNames := List.mem_map_of_mem (List.of_mem_zip hf).1
  obtain ⟨hexpr, hmem⟩ := h.one name hf
  obtain ⟨hlegible, hsize⟩ := h.child hname hmem
  exact ⟨hlegible.expression hexpr (h.isKind_starred hname hs hmem), hsize⟩

theorem expressions (h : Ready k as) (name : String)
    (hf : (Field.req name, Content.many .expr) ∈ k.fields.zip k.contents)
    (hs : k.holdsStarred name = false) :
    ∃ xs, field as name = .list xs ∧
      ∀ x ∈ xs, IsExpression x ∧ sizeOf x < sizeOf (node k as) := by
  have hname : name ∈ k.fieldNames := List.mem_map_of_mem (List.of_mem_zip hf).1
  obtain ⟨xs, hxs, hall⟩ := h.many name hf
  refine ⟨xs, hxs, fun x hx => ?_⟩
  obtain ⟨hexpr, hmem⟩ := hall x hx
  obtain ⟨hlegible, hsize⟩ := h.child hname hmem
  exact ⟨hlegible.expression hexpr (h.isKind_starred hname hs hmem), hsize⟩

theorem elements (h : Ready k as) (name : String)
    (hf : (Field.req name, Content.many .expr) ∈ k.fields.zip k.contents) :
    ∃ xs, field as name = .list xs ∧
      ∀ x ∈ xs, IsPart (fun n => Shows (element (expr n))) x ∧
        sizeOf x < sizeOf (node k as) := by
  have hname : name ∈ k.fieldNames := List.mem_map_of_mem (List.of_mem_zip hf).1
  obtain ⟨xs, hxs, hall⟩ := h.many name hf
  refine ⟨xs, hxs, fun x hx => ?_⟩
  obtain ⟨hexpr, hmem⟩ := hall x hx
  obtain ⟨hlegible, hsize⟩ := h.child hname hmem
  refine ⟨?_, hsize⟩
  cases hs : x.isKind .starred with
  | false => exact (hlegible.expression hexpr hs).shows.mono fun _ _ _ => element_of_shows
  | true => exact hlegible.starred hs

theorem clauses (h : Ready k as)
    (hf : (Field.req "generators", Content.many .comprehension) ∈ k.fields.zip k.contents) :
    ∃ gs, field as "generators" = .list gs ∧
      ∀ g ∈ gs, IsPart ShowsClause g ∧ sizeOf g < sizeOf (node k as) := by
  obtain ⟨gs, hgs, hall⟩ := h.many _ hf
  refine ⟨gs, hgs, fun g hg => ?_⟩
  obtain ⟨hof, hmem⟩ := hall g hg
  obtain ⟨hlegible, hsize⟩ := h.child (List.mem_map_of_mem (List.of_mem_zip hf).1) hmem
  exact ⟨hlegible.clause (isKind_of_isOf (by intro k hk; revert hk; cases k <;> decide) hof),
    hsize⟩

theorem optional (h : Ready k as) (name : String)
    (hf : (Field.opt name, Content.optional .expr) ∈ k.fields.zip k.contents)
    (hs : k.holdsStarred name = false) :
    field as name = .none ∨ ((field as name).isNode ∧
      IsExpression (field as name)) ∧
        sizeOf (field as name) < sizeOf (node k as) := by
  have hname : name ∈ k.fieldNames := List.mem_map_of_mem (List.of_mem_zip hf).1
  rcases Kind.optional_field h.conforms hf with hnone | hexpr
  · exact .inl hnone
  · obtain ⟨kv, avs, hv, -⟩ := exists_of_isOf hexpr
    have hget : get? as name = some (.node kv avs) := by
      rw [field] at hv
      cases hg : get? as name with
      | none => simp [hg] at hv
      | some v => simpa [hg] using hv
    have hmem : field as name ∈ childrenAt as name := by
      rw [hv]
      exact mem_childrenAt.mpr ⟨rfl, .inl hget⟩
    obtain ⟨hlegible, hsize⟩ := h.child hname hmem
    have hexpression := hlegible.expression hexpr (h.isKind_starred hname hs hmem)
    exact .inr ⟨⟨hv ▸ rfl, hexpression⟩, hsize⟩

theorem child_eq (h : Ready k as) (name : String) (hname : name ∈ k.fieldNames)
    (hprinted : IsPrinted (field as name)) (i : Nat) :
    (subject k as).child name i = .ok (written (field as name)) := by
  rw [child_of_conforms h.conforms hname, hprinted i]

theorem part_eq (h : Ready k as) (name : String) (hname : name ∈ k.fieldNames) :
    (subject k as).part name = .ok (printPart (field as name)) :=
  part_of_conforms h.conforms hname

theorem part_list (h : Ready k as) (hname : name ∈ k.fieldNames) (hxs : field as name = .list xs) :
    (subject k as).part name = .ok (printPart (.list xs)) := hxs ▸ h.part_eq name hname

end Ready

theorem mapM_print (h : ∀ x ∈ xs, IsPrinted x) (i : Nat) :
    (xs.map fun v => (⟨v, print false v⟩ : PrintItem)).mapM (PrintItem.print · .plain i) =
      .ok (xs.map written) := by
  rw [List.mapM_map]
  exact except_mapM_of_ok fun x hx => h x hx i

theorem commaList_eq {as : Attrs} (h : Ready k as) (hname : name ∈ k.fieldNames)
    (hxs : field as name = .list xs) (hprinted : ∀ x ∈ xs, IsPrinted x) (i : Nat) :
    (subject k as).commaList name i = .ok (", ".intercalate (xs.map written)) := by
  refine except_bind_of_ok (h.part_list hname hxs) (except_bind_of_ok (elements_printPart xs) ?_)
  exact except_bind_of_ok (mapM_print hprinted i) rfl

theorem generators_eq {as : Attrs} (h : Ready k as) (hname : "generators" ∈ k.fieldNames)
    (hxs : field as "generators" = .list xs) (hprinted : ∀ x ∈ xs, IsPrinted x) (i : Nat) :
    (subject k as).generators i = .ok (String.join (xs.map written)) := by
  refine except_bind_of_ok (h.part_list hname hxs) (except_bind_of_ok (elements_printPart xs) ?_)
  exact except_bind_of_ok (mapM_print hprinted i) rfl

/-- The texts of some values, with what they stand for. -/
def shown (xs : List Value) : List (List Char × Value) :=
  xs.map fun x => ((written x).toList, x.view)

@[simp] theorem map_fst_shown (xs : List Value) :
    (shown xs).map (·.1) = xs.map fun x => (written x).toList := by
  simp [shown]

@[simp] theorem map_snd_shown (xs : List Value) : (shown xs).map (·.2) = xs.map view := by
  simp [shown]

theorem forall_shown {R : List Char → Value → Prop} (xs : List Value)
    (h : ∀ x ∈ xs, R (written x).toList x.view) : ∀ q ∈ shown xs, R q.1 q.2 := by
  intro q hq
  obtain ⟨x, hx, rfl⟩ := List.mem_map.mp hq
  exact h x hx

/-! ## Operations -/

section

variable {v : Value} {s : String}

theorem isExpression_of (hprint : ∀ i, print false v .plain i = .ok s) (hfirm : Firm s.toList)
    (hspells : ∀ n, sizeOf v ≤ n → Spells n s.toList v.view) : IsExpression v := by
  obtain ⟨hprinted, rfl⟩ := isPrinted_of hprint
  exact ⟨hprinted, hfirm, hspells⟩

theorem isPart_of {R : Nat → List Char → Value → Prop} (hprint : ∀ i, print false v .plain i = .ok s)
    (hreads : ∀ n, sizeOf v ≤ n → R n s.toList v.view) : IsPart R v := by
  obtain ⟨hprinted, rfl⟩ := isPrinted_of hprint
  exact ⟨hprinted, fun n hn => hreads n hn.le⟩

theorem isExpression_enclosed (c d : Char) (body : List Char)
    (hprint : ∀ i, print false v .plain i = .ok s) (htext : s.toList = c :: (body ++ [d]))
    (hc : Text.isBlank c = false) (hd : Text.isBlank d = false)
    (hread : ∀ n, sizeOf v ≤ n → ∀ rest,
      atom (expr n) (c :: (body ++ d :: rest)) = some (v.view, rest)) : IsExpression v := by
  refine isExpression_of hprint (htext ▸ firm_enclosed hc hd body) fun n hn => spells_atom ?_
  intro rest _
  have happend : s.toList ++ rest = c :: (body ++ d :: rest) := by simp [htext]
  rw [happend]
  exact hread n hn rest

end

section

variable {as : Attrs}

theorem exists_sign (table : Kind → Option String) {c : Category}
    (htable : ∀ k : Kind, k.category? = some c → (table k).isSome ∧ k.fields = [])
    (h : v.isOf c) :
    ∃ op sg, v.kind? = some op ∧ table op = some sg ∧ v.view = .node op [] := by
  obtain ⟨op, bs, rfl, hop⟩ := exists_of_isOf h
  obtain ⟨hsome, hfields⟩ := htable op hop
  obtain ⟨sg, hsg⟩ := Option.isSome_iff_exists.mp hsome
  exact ⟨op, sg, rfl, hsg, view_of_fields_nil hfields⟩

theorem sign_eq {table : Kind → Option String} {op : Kind} {sg : String} (hop : v.kind? = some op)
    (hsg : table op = some sg) : sign table v = .ok sg := by
  simp [sign, hop, hsg]

theorem isExpression_binOp (h : Ready .binOp as) : IsExpression (.node .binOp as) := by
  obtain ⟨hleft, hsizeL⟩ := h.expression "left" (by decide) (by decide)
  obtain ⟨hright, hsizeR⟩ := h.expression "right" (by decide) (by decide)
  obtain ⟨hop, -⟩ := h.one (c := .operator) "op" (by decide)
  obtain ⟨op, sg, hkind, hsg, hsign⟩ := exists_sign binarySign
    (by intro k hk; revert hk; cases k <;> decide) hop
  have hprint (i : Nat) : print false (.node .binOp as) .plain i =
      .ok ("(" ++ written (field as "left") ++ " " ++ sg ++ " " ++
        written (field as "right") ++ ")") := by
    refine except_bind_of_ok (h.child_eq "left" (by decide) hleft.printed i) ?_
    refine except_bind_of_ok (h.part_eq "op" (by decide)) (except_bind_of_ok (a := sg) ?_ ?_)
    · rw [value_printPart, sign_eq hkind hsg]
    · exact except_bind_of_ok (h.child_eq "right" (by decide) hright.printed i) rfl
  refine isExpression_enclosed '(' ')' ((written (field as "left")).toList ++
    ' ' :: (sg.toList ++ ' ' :: (written (field as "right")).toList)) hprint (by simp) rfl rfl
    fun n hn rest => ?_
  have hview : (node .binOp as).view = .node .binOp [("left", (field as "left").view),
      ("op", .node op []), ("right", (field as "right").view)] :=
    hsign ▸ view_node h.conforms
  rw [hview]
  simp only [List.append_assoc, List.cons_append]
  exact parenthesis_binOp hsg (hleft.shows.reads n (by omega)) (hright.shows.reads n (by omega))

theorem isExpression_namedExpr (h : Ready .namedExpr as) :
    IsExpression (.node .namedExpr as) := by
  obtain ⟨htarget, hsizeT⟩ := h.expression "target" (by decide) (by decide)
  obtain ⟨hvalue, hsizeV⟩ := h.expression "value" (by decide) (by decide)
  have hprint (i : Nat) : print false (.node .namedExpr as) .plain i =
      .ok ("(" ++ written (field as "target") ++ " := " ++
        written (field as "value") ++ ")") := by
    refine except_bind_of_ok (h.child_eq "target" (by decide) htarget.printed i) ?_
    exact except_bind_of_ok (h.child_eq "value" (by decide) hvalue.printed i) rfl
  refine isExpression_enclosed '(' ')' ((written (field as "target")).toList ++
    (" := ".toList ++ (written (field as "value")).toList)) hprint (by simp) rfl rfl
    fun n hn rest => ?_
  rw [view_node h.conforms]
  simp only [List.append_assoc]
  exact parenthesis_namedExpr (htarget.shows.reads n (by omega)) (hvalue.shows.reads n (by omega))

theorem isExpression_ifExp (h : Ready .ifExp as) : IsExpression (.node .ifExp as) := by
  obtain ⟨htest, hsizeT⟩ := h.expression "test" (by decide) (by decide)
  obtain ⟨hbody, hsizeB⟩ := h.expression "body" (by decide) (by decide)
  obtain ⟨horelse, hsizeO⟩ := h.expression "orelse" (by decide) (by decide)
  have hprint (i : Nat) : print false (.node .ifExp as) .plain i =
      .ok ("(" ++ written (field as "body") ++ " if " ++ written (field as "test") ++
        " else " ++ written (field as "orelse") ++ ")") := by
    refine except_bind_of_ok (h.child_eq "body" (by decide) hbody.printed i) ?_
    refine except_bind_of_ok (h.child_eq "test" (by decide) htest.printed i) ?_
    exact except_bind_of_ok (h.child_eq "orelse" (by decide) horelse.printed i) rfl
  refine isExpression_enclosed '(' ')' ((written (field as "body")).toList ++
    (" if ".toList ++ ((written (field as "test")).toList ++ (" else ".toList ++
      (written (field as "orelse")).toList)))) hprint (by simp) rfl rfl
    fun n hn rest => ?_
  rw [view_node h.conforms]
  simp only [List.append_assoc]
  exact parenthesis_ifExp (hbody.shows.reads n (by omega)) (htest.shows.reads n (by omega))
    (horelse.shows.reads n (by omega))

theorem isExpression_unaryOp (h : Ready .unaryOp as) : IsExpression (.node .unaryOp as) := by
  obtain ⟨hoperand, hsize⟩ := h.expression "operand" (by decide) (by decide)
  obtain ⟨hop, -⟩ := h.one (c := .unaryOperator) "op" (by decide)
  obtain ⟨op, sg, hkind, hsg, hsign⟩ := exists_sign unarySign
    (by intro k hk; revert hk; cases k <;> decide) hop
  have hprint (i : Nat) : print false (.node .unaryOp as) .plain i =
      .ok ("(" ++ sg ++ " " ++ written (field as "operand") ++ ")") := by
    refine except_bind_of_ok (h.part_eq "op" (by decide)) (except_bind_of_ok (a := sg) ?_ ?_)
    · rw [value_printPart, sign_eq hkind hsg]
    · exact except_bind_of_ok (h.child_eq "operand" (by decide) hoperand.printed i) rfl
  refine isExpression_enclosed '(' ')' (sg.toList ++ ' ' ::
    (written (field as "operand")).toList) hprint (by simp) rfl rfl fun n hn rest => ?_
  have hview : (node .unaryOp as).view = .node .unaryOp [("op", .node op []),
      ("operand", (field as "operand").view)] := hsign ▸ view_node h.conforms
  rw [hview]
  simp only [List.append_assoc, List.cons_append]
  exact parenthesis_unaryOp hsg (hoperand.shows.reads n (by omega))

theorem optional_eq (h : Ready k as) (before : String) (hname : name ∈ k.fieldNames)
    (hfield : field as name = .none ∨
      (field as name).isNode = true ∧ IsPrinted (field as name)) (i : Nat) :
    (subject k as).optional name before i = .ok (if (field as name).isNone then "" else
      before ++ written (field as name)) := by
  rw [Subject.optional, h.part_eq _ hname]
  rcases hfield with hnone | ⟨hnode, hprinted⟩
  · rw [hnone]
    rfl
  · have htruthy : (printPart (field as name)).isTruthy ∧
        (field as name).isNone = false := by
      rw [PrintPart.isTruthy, value_printPart]
      cases hv : field as name with
      | node => exact ⟨rfl, rfl⟩
      | _ => simp [hv, isNode] at hnode
    change (if (printPart (field as name)).isTruthy then do
      return before ++ (← print false (field as name) .plain i) else return "") = _
    rw [htruthy.1, hprinted i, htruthy.2]
    rfl

theorem operand_eq (h : Ready k as) (word : String) (hname : "value" ∈ k.fieldNames)
    (hfield : field as "value" = .none ∨
      (field as "value").isNode = true ∧ IsPrinted (field as "value")) (i : Nat) :
    (subject k as).operand word i = .ok ("(" ++ word ++ (if (field as "value").isNone then ""
      else " " ++ written (field as "value")) ++ ")") := by
  rw [Subject.operand, optional_eq h " " hname hfield]
  rfl

theorem isNone_of_isNode (h : v.isNode) : v.isNone = false := by
  cases v with
  | node => rfl
  | _ => cases h

theorem isExpression_await (h : Ready .await as) : IsExpression (.node .await as) := by
  obtain ⟨hvalue, hsize⟩ := h.expression "value" (by decide) (by decide)
  have hnode := isNode_of_isOf (h.one "value" (c := .expr) (by decide)).1
  have hprint (i : Nat) := operand_eq h "await" (by decide) (.inr ⟨hnode, hvalue.printed⟩) i
  rw [isNone_of_isNode hnode] at hprint
  refine isExpression_enclosed '(' ')' ("await ".toList ++ (written (field as "value")).toList)
    hprint (by simp) rfl rfl fun n hn rest => ?_
  rw [view_node h.conforms]
  simp only [List.append_assoc]
  exact parenthesis_await (hvalue.shows.reads n (by omega))

theorem isExpression_yieldFrom (h : Ready .yieldFrom as) : IsExpression (.node .yieldFrom as) := by
  obtain ⟨hvalue, hsize⟩ := h.expression "value" (by decide) (by decide)
  have hnode := isNode_of_isOf (h.one "value" (c := .expr) (by decide)).1
  have hprint (i : Nat) := operand_eq h "yield from" (by decide) (.inr ⟨hnode, hvalue.printed⟩) i
  rw [isNone_of_isNode hnode] at hprint
  refine isExpression_enclosed '(' ')' ("yield from ".toList ++
    (written (field as "value")).toList) hprint (by simp) rfl rfl fun n hn rest => ?_
  rw [view_node h.conforms]
  simp only [List.append_assoc]
  exact parenthesis_yieldFrom (hvalue.shows.reads n (by omega))

theorem isExpression_yield (h : Ready .yield as) : IsExpression (.node .yield as) := by
  rcases h.optional "value" (by decide) (by decide) with hnone | ⟨⟨hnode, hvalue⟩, hsize⟩
  · have hprint (i : Nat) := operand_eq h "yield" (by decide) (.inl hnone) i
    rw [hnone] at hprint
    refine isExpression_enclosed '(' ')' "yield".toList hprint (by simp [isNone]) rfl rfl
      fun n hn rest => ?_
    have hview : (node .yield as).view = .node .yield [("value", (field as "value").view)] :=
      view_node h.conforms
    rw [hview, hnone]
    exact parenthesis_yield_none
  · have hprint (i : Nat) := operand_eq h "yield" (by decide) (.inr ⟨hnode, hvalue.printed⟩) i
    rw [isNone_of_isNode hnode] at hprint
    refine isExpression_enclosed '(' ')' ("yield ".toList ++
      (written (field as "value")).toList) hprint (by simp) rfl rfl fun n hn rest => ?_
    rw [view_node h.conforms]
    simp only [List.append_assoc]
    exact parenthesis_yield (hvalue.shows.reads n (by omega))

theorem isExpression_boolOp (h : Ready .boolOp as) : IsExpression (.node .boolOp as) := by
  obtain ⟨hop, -⟩ := h.one (c := .boolOperator) "op" (by decide)
  obtain ⟨op, word, hkind, hword, hsign⟩ := exists_sign boolSign
    (by intro k hk; revert hk; cases k <;> decide) hop
  obtain ⟨xs, hxs, hall⟩ := h.expressions "values" (by decide) (by decide)
  have hlength : decide (2 ≤ (items as "values").length) :=
    (Bool.and_eq_true_iff.mp h.writable).2
  rw [items_eq hxs, decide_eq_true_eq] at hlength
  have hprint (i : Nat) : print false (.node .boolOp as) .plain i =
      .ok ("(" ++ (" " ++ word ++ " ").intercalate (xs.map written) ++ ")") := by
    have hop := h.part_eq "op" (by decide)
    have hvalues := h.part_eq "values" (by decide)
    rw [hxs] at hvalues
    simp only [print_node, Subject.plain, Subject.expression?, kind_subject, hop, hvalues, bind, Except.bind, value_printPart, hkind, Option.bind, hword, pure, Except.pure,
      elements_printPart, interleave, mapM_print fun x hx => (hall x hx).1.printed]
    rfl
  have hview : (node .boolOp as).view =
      .node .boolOp [("op", .node op []), ("values", .list (xs.map view))] := by
    rw [← hsign, ← view_list, ← hxs]
    exact view_node h.conforms
  refine isExpression_enclosed '(' ')' ((" " ++ word ++ " ").toList.intercalate
    (xs.map fun x => (written x).toList)) hprint (by simp [Function.comp_def]) rfl rfl
    fun n hn rest => ?_
  have hshows : ∀ x ∈ xs, Shows (expr n) (written x).toList x.view := fun x hx => by
    obtain ⟨hx, hsize⟩ := hall x hx
    exact hx.shows.reads n (by omega)
  rw [hview]
  match xs, hlength with
  | x :: y :: xs, _ =>
    rw [atom_paren, List.map_cons, List.map_cons, ← map_fst_shown, List.map_cons, List.map_cons,
      ← map_snd_shown]
    exact parenthesis_boolOp hword (hshows x (by simp)) (hshows y (by simp))
      (forall_shown xs fun z hz => hshows z (by simp [hz]))

/-! ## Displays -/

theorem isExpression_list (h : Ready .list as) : IsExpression (.node .list as) := by
  obtain ⟨xs, hxs, hall⟩ := h.elements "elts" (by decide)
  have hprint (i : Nat) : print false (.node .list as) .plain i =
      .ok ("[" ++ ", ".intercalate (xs.map written) ++ "]") :=
    except_bind_of_ok (commaList_eq h (by decide) hxs (fun x hx => (hall x hx).1.printed) i) rfl
  have hview : (node .list as).view = .node .list [("elts", .list (xs.map view))] := by
    rw [← view_list, ← hxs]
    exact view_node h.conforms
  refine isExpression_enclosed '[' ']' ([',', ' '].intercalate (xs.map fun x => (written x).toList))
    hprint (by simp [Function.comp_def]) rfl rfl fun n hn rest => ?_
  rw [hview, ← map_fst_shown, ← map_snd_shown, atom_bracket]
  exact listDisplay_run (forall_shown xs fun x hx =>
    (hall x hx).1.reads n (by have := (hall x hx).2; omega))

theorem isExpression_set (h : Ready .set as) : IsExpression (.node .set as) := by
  obtain ⟨xs, hxs, hall⟩ := h.elements "elts" (by decide)
  have hne : (!(items as "elts").isEmpty) := (Bool.and_eq_true_iff.mp h.writable).2
  rw [items_eq hxs, Bool.not_eq_true', List.isEmpty_eq_false_iff] at hne
  have htruthy : (printPart (.list xs)).isTruthy := by
    cases xs with
    | nil => exact absurd rfl hne
    | cons => rfl
  have hprint (i : Nat) : print false (.node .set as) .plain i =
      .ok ("\x7b" ++ ", ".intercalate (xs.map written) ++ "\x7d") := by
    refine except_bind_of_ok (h.part_list (by decide) hxs) ?_
    rw [htruthy]
    exact except_bind_of_ok (commaList_eq h (by decide) hxs (fun x hx => (hall x hx).1.printed) i) rfl
  have hview : (node .set as).view = .node .set [("elts", .list (xs.map view))] := by
    rw [← view_list, ← hxs]
    exact view_node h.conforms
  refine isExpression_enclosed '\x7b' '\x7d'
    ([',', ' '].intercalate (xs.map fun x => (written x).toList)) hprint
    (by simp [Function.comp_def]) rfl rfl fun n hn rest => ?_
  rw [hview, ← map_fst_shown, ← map_snd_shown, atom_brace]
  exact braceDisplay_set (forall_shown xs fun x hx =>
    (hall x hx).1.reads n (by have := (hall x hx).2; omega)) (by simpa [shown] using hne)

theorem isExpression_tuple (h : Ready .tuple as) : IsExpression (.node .tuple as) := by
  obtain ⟨xs, hxs, hall⟩ := h.elements "elts" (by decide)
  have hview : (node .tuple as).view = .node .tuple [("elts", .list (xs.map view))] := by
    rw [← view_list, ← hxs]
    exact view_node h.conforms
  have hprint (i : Nat) : print false (.node .tuple as) .plain i =
      .ok ("(" ++ ", ".intercalate (xs.map written) ++ if xs.length == 1 then ",)" else ")") := by
    have hcommas := commaList_eq h (by decide) hxs (fun x hx => (hall x hx).1.printed) i
    refine except_bind_of_ok (h.part_list (by decide) hxs) ?_
    refine except_bind_of_ok (length_printPart xs) ?_
    cases xs.length == 1 <;> exact except_bind_of_ok hcommas rfl
  by_cases hlength : xs.length = 1
  · obtain ⟨x, rfl⟩ := List.length_eq_one_iff.mp hlength
    refine isExpression_enclosed '(' ')' ((written x).toList ++ [',']) hprint (by simp) rfl rfl
      fun n hn rest => ?_
    have hx : Shows (element (expr n)) (written x).toList x.view := by
      obtain ⟨hx, hsize⟩ := hall x List.mem_cons_self
      exact hx.reads n (by omega)
    rw [hview, List.append_assoc, atom_paren]
    exact parenthesis_single hx
  · refine isExpression_enclosed '(' ')'
      ([',', ' '].intercalate (xs.map fun x => (written x).toList)) hprint
      (by simp [Function.comp_def, hlength]) rfl rfl fun n hn rest => ?_
    rw [hview, ← map_fst_shown, ← map_snd_shown, atom_paren]
    exact parenthesis_tuple (forall_shown xs fun x hx =>
      (hall x hx).1.reads n (by have := (hall x hx).2; omega)) (by simpa [shown] using hlength)

/-- Lists, sets and generators from a comprehension differ in their brackets. -/
theorem isExpression_comprehended (h : Ready k as) (before after : String) (c d : Char)
    (hbefore : before.toList = [c]) (hafter : after.toList = [d])
    (hblank : Text.isBlank c = false ∧ Text.isBlank d = false)
    (hk : k.fields.zip k.contents = Kind.listComp.fields.zip Kind.listComp.contents)
    (hs : k.holdsStarred "elt" = false) (hne : (!(items as "generators").isEmpty))
    (hview : (node k as).view = .node k [("elt", (field as "elt").view),
      ("generators", (field as "generators").view)])
    (hprint : ∀ i, print false (.node k as) .plain i = (subject k as).comprehended before after i)
    (hread : ∀ n rest first x (gs : List (List Char × Value)), Shows (expr n) first x → gs ≠ [] →
      (∀ g ∈ gs, ShowsClause n g.1 g.2) →
      atom (expr n) (c :: (first ++ (gs.flatMap (·.1) ++ d :: rest))) =
        some (.node k [("elt", x), ("generators", .list (gs.map (·.2)))], rest)) :
    IsExpression (.node k as) := by
  have hf : (Field.req "generators", Content.many .comprehension) ∈ k.fields.zip k.contents := by
    rw [hk]
    decide
  have helt : (Field.req "elt", Content.one .expr) ∈ k.fields.zip k.contents := by
    rw [hk]
    decide
  obtain ⟨gs, hgs, hall⟩ := h.clauses hf
  obtain ⟨hexpr, hsize⟩ := h.expression "elt" helt hs
  rw [items_eq hgs, Bool.not_eq_true', List.isEmpty_eq_false_iff] at hne
  have htext (i : Nat) : print false (.node k as) .plain i =
      .ok (before ++ written (field as "elt") ++ String.join (gs.map written) ++ after) := by
    rw [hprint, Subject.comprehended,
      h.child_eq "elt" (List.mem_map_of_mem (List.of_mem_zip helt).1) hexpr.printed,
      generators_eq h (List.mem_map_of_mem (List.of_mem_zip hf).1) hgs fun g hg => (hall g hg).1.printed]
    rfl
  refine isExpression_enclosed c d ((written (field as "elt")).toList ++
    (shown gs).flatMap (·.1)) htext (by simp [shown, List.flatMap_map, hbefore, hafter])
    hblank.1 hblank.2 fun n hn rest => ?_
  rw [hview, hgs, view_list, ← map_snd_shown, List.append_assoc]
  exact hread n rest _ _ (shown gs) (hexpr.shows.reads n (by omega)) (by simpa [shown] using hne)
    (forall_shown _ fun g hg => (hall g hg).1.reads n (by have := (hall g hg).2; omega))

theorem isExpression_listComp (h : Ready .listComp as) : IsExpression (.node .listComp as) := by
  refine isExpression_comprehended h "[" "]" '[' ']' rfl rfl ⟨rfl, rfl⟩ rfl rfl
    (Bool.and_eq_true_iff.mp h.writable).2 (view_node h.conforms) (fun _ => rfl) ?_
  intro n rest first x gs hx hne hgs
  rw [atom_bracket]
  exact listDisplay_comprehension hx hne hgs

theorem isExpression_setComp (h : Ready .setComp as) : IsExpression (.node .setComp as) := by
  refine isExpression_comprehended h "\x7b" "\x7d" '\x7b' '\x7d' rfl rfl ⟨rfl, rfl⟩ rfl rfl
    (Bool.and_eq_true_iff.mp h.writable).2 (view_node h.conforms) (fun _ => rfl) ?_
  intro n rest first x gs hx hne hgs
  rw [atom_brace]
  exact braceDisplay_setComp hx hne hgs

theorem isExpression_generatorExp (h : Ready .generatorExp as) :
    IsExpression (.node .generatorExp as) := by
  refine isExpression_comprehended h "(" ")" '(' ')' rfl rfl ⟨rfl, rfl⟩ rfl rfl
    (Bool.and_eq_true_iff.mp h.writable).2 (view_node h.conforms) (fun _ => rfl) ?_
  intro n rest first x gs hx hne hgs
  rw [atom_paren]
  exact parenthesis_generatorExp hx hne hgs

theorem isExpression_dictComp (h : Ready .dictComp as) : IsExpression (.node .dictComp as) := by
  obtain ⟨hkey, hsizeK⟩ := h.expression "key" (by decide) (by decide)
  obtain ⟨hvalue, hsizeV⟩ := h.expression "value" (by decide) (by decide)
  obtain ⟨gs, hgs, hall⟩ := h.clauses (by decide)
  have hne : (!(items as "generators").isEmpty) := (Bool.and_eq_true_iff.mp h.writable).2
  rw [items_eq hgs, Bool.not_eq_true', List.isEmpty_eq_false_iff] at hne
  have hprint (i : Nat) : print false (.node .dictComp as) .plain i =
      .ok ("\x7b" ++ written (field as "key") ++ ": " ++ written (field as "value") ++
        String.join (gs.map written) ++ "\x7d") := by
    refine except_bind_of_ok (h.child_eq "key" (by decide) hkey.printed i) ?_
    refine except_bind_of_ok (h.child_eq "value" (by decide) hvalue.printed i) ?_
    exact except_bind_of_ok (generators_eq h (by decide) hgs (fun g hg => (hall g hg).1.printed) i) rfl
  have hview : (node .dictComp as).view = .node .dictComp [("key", (field as "key").view),
      ("value", (field as "value").view), ("generators", .list ((shown gs).map (·.2)))] := by
    rw [map_snd_shown, ← view_list, ← hgs]
    exact view_node h.conforms
  refine isExpression_enclosed '\x7b' '\x7d' ((written (field as "key")).toList ++ ':' :: ' ' ::
    ((written (field as "value")).toList ++ (shown gs).flatMap (·.1))) hprint
    (by simp [shown, List.flatMap_map]) rfl rfl fun n hn rest => ?_
  rw [hview, atom_brace]
  simp only [List.append_assoc, List.cons_append]
  exact braceDisplay_dictComp (hkey.shows.reads n (by omega)) (hvalue.shows.reads n (by omega))
    (by simpa [shown] using hne)
    (forall_shown _ fun g hg => (hall g hg).1.reads n (by have := (hall g hg).2; omega))

theorem Ready.keys (h : Ready .dict as) : ∃ ks, field as "keys" = .list ks ∧
    ∀ x ∈ ks, IsExpression x ∧ sizeOf x < sizeOf (node .dict as) := by
  obtain ⟨v, hv, hc⟩ := Kind.exists_of_conforms h.conforms "keys" (.sparse .expr) (by decide)
  have hfield : field as "keys" = v := by rw [field, hv]; rfl
  have hwritable : ((items as "keys").all (·.isNode) &&
      (items as "keys").length == (items as "values").length) :=
    (Bool.and_eq_true_iff.mp h.writable).2
  cases v with
  | list ks =>
    rw [items_eq hfield, Bool.and_eq_true, List.all_eq_true] at hwritable
    refine ⟨ks, hfield, fun x hx => ?_⟩
    have hnode := hwritable.1 x hx
    have hexpr : x.isOf .expr := by
      have hadmits := List.all_eq_true.mp hc x hx
      rwa [isNone_of_isNode hnode, Bool.false_or] at hadmits
    have hmem := mem_childrenAt.mpr ⟨hnode, .inr ⟨ks, hv, hx⟩⟩
    obtain ⟨hlegible, hsize⟩ := h.child (by decide) hmem
    exact ⟨hlegible.expression hexpr (h.isKind_starred (by decide) (by decide) hmem), hsize⟩
  | _ => cases hc

theorem mapM_zip {ys : List Value} {f : PrintItem × PrintItem → Printed}
    {g : Value × Value → String}
    (h : ∀ x ∈ xs, ∀ y ∈ ys, f (⟨x, print false x⟩, ⟨y, print false y⟩) = .ok (g (x, y))) :
    ((xs.map fun v => (⟨v, print false v⟩ : PrintItem)).zip
      (ys.map fun v => (⟨v, print false v⟩ : PrintItem))).mapM f = .ok ((xs.zip ys).map g) := by
  rw [List.zip_map, List.mapM_map]
  exact except_mapM_of_ok fun p hp => h p.1 (List.of_mem_zip hp).1 p.2 (List.of_mem_zip hp).2

theorem isExpression_dict (h : Ready .dict as) : IsExpression (.node .dict as) := by
  obtain ⟨ks, hks, hkeys⟩ := h.keys
  obtain ⟨vs, hvs, hvalues⟩ := h.expressions "values" (by decide) (by decide)
  have hwritable : ((items as "keys").all (·.isNode) &&
      (items as "keys").length == (items as "values").length) :=
    (Bool.and_eq_true_iff.mp h.writable).2
  have hlength : ks.length = vs.length := by
    rw [items_eq hks, items_eq hvs, Bool.and_eq_true] at hwritable
    exact eq_of_beq hwritable.2
  have hprint (i : Nat) : print false (.node .dict as) .plain i =
      .ok ("\x7b" ++ ", ".intercalate ((ks.zip vs).map fun p =>
        written p.1 ++ ": " ++ written p.2) ++ "\x7d") := by
    change (subject .dict as).dictEntries i = _
    rw [Subject.dictEntries, h.part_eq "keys" (by decide), h.part_eq "values" (by decide), hks, hvs]
    simp only [bind, Except.bind, elements_printPart]
    rw [mapM_zip (g := fun p => written p.1 ++ ": " ++ written p.2)]
    · rfl
    · intro x hx y hy
      simp only [PrintItem.print, (hkeys x hx).1.printed i, (hvalues y hy).1.printed i]
      rfl
  have hview : (node .dict as).view =
      .node .dict [("keys", .list (((shown ks).zip (shown vs)).map (·.1.2))),
        ("values", .list (((shown ks).zip (shown vs)).map (·.2.2)))] := by
    have hkeysOf : ((shown ks).zip (shown vs)).map (·.1.2) = ks.map view := by
      have hfirst := congrArg (List.map (·.2)) (List.map_fst_zip
        (show (shown ks).length ≤ (shown vs).length by simp [shown, hlength]))
      rw [List.map_map] at hfirst
      exact hfirst.trans (map_snd_shown ks)
    have hvaluesOf : ((shown ks).zip (shown vs)).map (·.2.2) = vs.map view := by
      have hsecond := congrArg (List.map (·.2)) (List.map_snd_zip
        (show (shown vs).length ≤ (shown ks).length by simp [shown, hlength]))
      rw [List.map_map] at hsecond
      exact hsecond.trans (map_snd_shown vs)
    rw [hkeysOf, hvaluesOf, ← view_list, ← view_list, ← hks, ← hvs]
    exact view_node h.conforms
  refine isExpression_enclosed '\x7b' '\x7d' ([',', ' '].intercalate
    (((shown ks).zip (shown vs)).map fun d => d.1.1 ++ ':' :: ' ' :: d.2.1)) hprint
    (by simp [shown, List.zip_map, Function.comp_def]) rfl rfl fun n hn rest => ?_
  rw [hview, atom_brace]
  refine braceDisplay_dict fun d hd => ?_
  obtain ⟨hd₁, hd₂⟩ := List.of_mem_zip hd
  exact ⟨forall_shown ks (fun x hx => (hkeys x hx).1.shows.reads n (by have := (hkeys x hx).2; omega))
      _ hd₁,
    forall_shown vs (fun x hx => (hvalues x hx).1.shows.reads n (by have := (hvalues x hx).2; omega))
      _ hd₂⟩

/-- An operator and an operand as they are written. -/
def comparisonOf (p : Value × Value) : Comparison :=
  ⟨p.1.kind?.getD .eq, (p.1.kind?.bind compareSign).getD "", (written p.2).toList, p.2.view⟩

theorem isExpression_compare (h : Ready .compare as) : IsExpression (.node .compare as) := by
  obtain ⟨hleft, hsize⟩ := h.expression "left" (by decide) (by decide)
  obtain ⟨os, hos, hops⟩ := h.many (c := .comparison) "ops" (by decide)
  obtain ⟨es, hes, hoperands⟩ := h.expressions "comparators" (by decide) (by decide)
  have hwritable : (!(items as "ops").isEmpty &&
      (items as "ops").length == (items as "comparators").length) :=
    (Bool.and_eq_true_iff.mp h.writable).2
  rw [items_eq hos, items_eq hes, Bool.and_eq_true, Bool.not_eq_true',
    List.isEmpty_eq_false_iff, beq_iff_eq] at hwritable
  obtain ⟨hne, hlength⟩ := hwritable
  have hsigns (o : Value) (ho : o ∈ os) (e : Value) :
      sign compareSign o = .ok (comparisonOf (o, e)).sign ∧
      compareSign (comparisonOf (o, e)).op = some (comparisonOf (o, e)).sign ∧
      .node (comparisonOf (o, e)).op [] = o.view := by
    obtain ⟨op, sg, hkind, hsg, hsign⟩ := exists_sign compareSign
      (by intro k hk; revert hk; cases k <;> decide) (hops o ho).1
    simp [comparisonOf, hkind, hsg, hsign, sign_eq hkind hsg]
  have hprint (i : Nat) : print false (.node .compare as) .plain i =
      .ok ("(" ++ written (field as "left") ++ String.join ((os.zip es).map fun p =>
        " " ++ (comparisonOf p).sign ++ " " ++ written p.2) ++ ")") := by
    change (subject .compare as).comparison i = _
    rw [Subject.comparison, h.child_eq "left" (by decide) hleft.printed,
      h.part_eq "ops" (by decide), h.part_eq "comparators" (by decide), hos, hes]
    simp only [bind, Except.bind, elements_printPart]
    rw [mapM_zip (g := fun p => " " ++ (comparisonOf p).sign ++ " " ++ written p.2)]
    · rfl
    · intro o ho e he
      simp only [PrintItem.print, (hsigns o ho e).1, (hoperands e he).1.printed i]
      rfl
  have hview : (node .compare as).view = .node .compare [("left", (field as "left").view),
      ("ops", .list (((os.zip es).map comparisonOf).map fun d => .node d.op [])),
      ("comparators", .list (((os.zip es).map comparisonOf).map (·.operand)))] := by
    have hopsOf : (((os.zip es).map comparisonOf).map fun d => node d.op []) =
        os.map view := by
      refine Eq.trans ?_ (congrArg (List.map view) (List.map_fst_zip hlength.le))
      rw [List.map_map, List.map_map]
      exact List.map_congr_left fun p hp => (hsigns p.1 (List.of_mem_zip hp).1 p.2).2.2
    have hoperandsOf : ((os.zip es).map comparisonOf).map (·.operand) = es.map view := by
      refine Eq.trans ?_ (congrArg (List.map view) (List.map_snd_zip hlength.ge))
      rw [List.map_map, List.map_map]
      rfl
    rw [hopsOf, hoperandsOf, ← view_list, ← view_list, ← hos, ← hes]
    exact view_node h.conforms
  refine isExpression_enclosed '(' ')' ((written (field as "left")).toList ++
    ((os.zip es).map comparisonOf).flatMap (·.written)) hprint
    (by simp [comparisonOf, Comparison.written, List.flatMap_map]) rfl rfl fun n hn rest => ?_
  rw [hview, atom_paren, List.append_assoc]
  refine parenthesis_compare (hleft.shows.reads n (by omega)) ?_ fun d hd => ?_
  · rw [← List.length_pos_iff] at hne ⊢
    simpa [← hlength] using hne
  · obtain ⟨p, hp, rfl⟩ := List.mem_map.mp hd
    obtain ⟨hoperand, hsizeE⟩ := hoperands p.2 (List.of_mem_zip hp).2
    exact ⟨(hsigns p.1 (List.of_mem_zip hp).1 p.2).2.1, hoperand.shows.reads n (by omega)⟩

end

end Source

end TreeMacros
