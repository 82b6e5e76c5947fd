import TreeMacros.Proofs.Settling

/-!
# Shapes

The shape of a tree is what it says, wherever it stands. What detection reads off a tree, and
whether its fields hold what belongs there, depends on the shape alone. A tree that is missing
neither contexts nor other fields has nothing to be filled in but locations.
-/

namespace TreeMacros

open Attrs (get?)

variable {name : String} {args : List Value} {k : Kind}

namespace Value

/-- What a tree says, wherever it stands: its fields, without labels and locations. -/
def shape (v : Value) : Value := v.outline fun _ => true

variable {k : Kind} {as bs : Attrs} {v u : Value} {xs ys : List Value}

theorem shape_node (k : Kind) (as : Attrs) :
    (node k as).shape = node k (outlineAttrs (fun _ => true) k as) := outline_node k as

theorem shape_list (xs : List Value) : (list xs).shape = list (xs.map shape) := outline_list xs

theorem shape_other (hn : v.isNode = false) (hl : v.isList = false) : v.shape = v :=
  outline_other hn hl

@[simp] theorem shape_unlabelled (v : Value) : v.unlabelled.shape = v.shape := outline_unlabelled v

@[simp] theorem kind?_shape (v : Value) : v.shape.kind? = v.kind? := kind?_outline v

@[simp] theorem isNode_shape (v : Value) : v.shape.isNode = v.isNode := isNode_outline v

@[simp] theorem isKind_shape (v : Value) (k : Kind) : v.shape.isKind k = v.isKind k :=
  isKind_outline v k

@[simp] theorem isText_shape (v : Value) : v.shape.isText = v.isText := isText_outline v

theorem get?_shape (hf : Field.req name ∈ k.fields) :
    get? (outlineAttrs (fun _ => true) k as) name = (get? as name).map shape :=
  get?_outlineAttrs_req hf rfl

theorem shape_node_eq_iff : (node k as).shape = (node k bs).shape ↔
    ∀ f ∈ k.fields, outlineAt (fun _ => true) as f = outlineAt (fun _ => true) bs f := by
  rw [shape_node, shape_node]
  constructor
  · intro h f hf
    have hget := congrArg (get? · f.name) (node.inj h).2
    simpa only [get?_outlineAttrs hf] using hget
  · intro h
    rw [outlineAttrs, outlineAttrs]
    congr 1
    exact List.filterMap_congr fun f hf => by rw [h f hf]

theorem get?_of_shape (h : (node k as).shape = (node k bs).shape) (hf : Field.req name ∈ k.fields) :
    (get? as name).map shape = (get? bs name).map shape := by
  rw [shape_node, shape_node] at h
  have hget := congrArg (get? · name) (node.inj h).2
  simpa only [get?_shape hf] using hget

theorem exists_of_shape_node (h : v.shape = (node k as).shape) : ∃ bs, v = node k bs := by
  have hkind : v.kind? = some k := by
    rw [← kind?_shape, h, kind?_shape]
    rfl
  cases v with
  | node j bs =>
    cases hkind
    exact ⟨bs, rfl⟩
  | _ => cases hkind

theorem exists_of_shape_list (h : v.shape = (list xs).shape) :
    ∃ ys, v = list ys ∧ ys.map shape = xs.map shape := by
  cases v with
  | node j bs =>
    rw [shape_node, shape_list] at h
    cases h
  | list ys =>
    rw [shape_list, shape_list] at h
    exact ⟨ys, rfl, list.inj h⟩
  | _ =>
    rw [shape_other rfl rfl, shape_list] at h
    cases h

/-! ## Heads that can be read -/

def text? : Value → Option String
  | str s => some s
  | _ => .none

def nameId? : Value → Option String
  | node .name as => (get? as "id").bind text?
  | _ => .none

/-- The arguments that an index stands for: the elements of a tuple, or the index itself. -/
def argumentsOf? : Value → Option (List Value)
  | node .tuple as => (get? as "elts").bind fun elts => if elts.isList then elts.elements? else .none
  | v => some [v]

/-- The arguments in brackets that hold an index. -/
def arguments? : Value → Option (List Value)
  | node .index as => (get? as "value").bind argumentsOf?
  | _ => .none

/-- How detection reads a tree: as a name with arguments, or as no candidate. Some trees cannot be
read. -/
def reading? : Value → Option (Option (String × List Value))
  | node .name as => (nameId? (node .name as)).map fun s => some (s, [])
  | node .subscript as =>
    match get? as "value", get? as "slice" with
    | some head, some brackets =>
      if head.isKind .name then
        head.nameId?.bind fun s => brackets.arguments?.map fun args => some (s, args)
      else some .none
    | _, _ => .none
  | _ => some .none

theorem text?_shape (v : Value) : v.shape.text? = v.text? := by
  cases v with
  | node k as => rw [shape_node]; rfl
  | list xs => rw [shape_list]; rfl
  | _ => rfl

theorem nameId?_shape (v : Value) : v.shape.nameId? = v.nameId? := by
  cases v with
  | node k as =>
    rw [shape_node]
    by_cases hk : k = .name
    · subst hk
      rw [nameId?, nameId?, get?_shape (by decide), Option.bind_map]
      exact congrArg _ (funext text?_shape)
    · rw [nameId?.eq_def, nameId?.eq_def]
      simp [hk]
  | list xs => rw [shape_list]; rfl
  | _ => rfl

theorem argumentsOf?_shape (v : Value) :
    v.shape.argumentsOf? = v.argumentsOf?.map (List.map shape) := by
  cases v with
  | node k as =>
    rw [shape_node]
    by_cases hk : k = .tuple
    · subst hk
      rw [argumentsOf?, argumentsOf?, get?_shape (by decide), Option.bind_map, Option.map_bind]
      refine congrArg _ (funext fun elts => ?_)
      cases elts with
      | node j bs => simp [shape_node, isList]
      | list xs => simp [shape_list, isList, elements?]
      | _ => rfl
    · rw [argumentsOf?.eq_def, argumentsOf?.eq_def]
      simp [hk, shape_node]
  | list xs => simp [shape_list, argumentsOf?]
  | _ => rfl

theorem arguments?_shape (v : Value) : v.shape.arguments? = v.arguments?.map (List.map shape) := by
  cases v with
  | node k as =>
    rw [shape_node]
    by_cases hk : k = .index
    · subst hk
      rw [arguments?, arguments?, get?_shape (by decide), Option.bind_map, Option.map_bind]
      exact congrArg _ (funext argumentsOf?_shape)
    · rw [arguments?.eq_def, arguments?.eq_def]
      simp [hk]
  | list xs => rw [shape_list]; rfl
  | _ => rfl

theorem reading?_shape (v : Value) :
    v.shape.reading? = v.reading?.map (Option.map fun c => (c.1, c.2.map shape)) := by
  cases v with
  | node k as =>
    by_cases hname : k = .name
    · subst hname
      have hid := nameId?_shape (node .name as)
      rw [shape_node] at hid ⊢
      rw [reading?, reading?, hid, Option.map_map]
      rfl
    · by_cases hsubscript : k = .subscript
      · subst hsubscript
        rw [shape_node, reading?, reading?, get?_shape (by decide), get?_shape (by decide)]
        rcases get? as "value" with _ | head
        · rfl
        · rcases get? as "slice" with _ | brackets
          · rfl
          · simp only [Option.map_some, isKind_shape, nameId?_shape, arguments?_shape]
            split
            · cases head.nameId? <;> cases brackets.arguments? <;> rfl
            · rfl
      · rw [shape_node, reading?.eq_def, reading?.eq_def]
        simp [hname, hsubscript]
  | list xs => rw [shape_list]; rfl
  | _ => rfl

theorem slicesName_shape (v : Value) : v.shape.slicesName = v.slicesName := by
  cases v with
  | node k as =>
    rw [shape_node]
    by_cases hk : k = .subscript
    · subst hk
      rw [slicesName, slicesName, get?_shape (by decide), get?_shape (by decide)]
      cases get? as "value" <;> cases get? as "slice" <;> simp
    · rw [slicesName.eq_def, slicesName.eq_def]
      simp [hk]
  | list xs => rw [shape_list]; rfl
  | _ => rfl

theorem attr_of_nameId? {s : String} (h : v.nameId? = some s) : v.attr "id" = .ok (str s) := by
  unfold nameId? at h
  split at h
  · obtain ⟨u, hu, h⟩ := Option.bind_eq_some_iff.mp h
    rw [attr_of_get? hu]
    cases u with
    | str => cases h; rfl
    | _ => cases h
  · cases h

theorem elts_of_argumentsOf? (h : v.argumentsOf? = some args) :
    (if v.isKind .tuple then v.attr "elts" else .ok (list [v])) = .ok (list args) := by
  unfold argumentsOf? at h
  split at h
  · obtain ⟨elts, helts, h⟩ := Option.bind_eq_some_iff.mp h
    refine (attr_of_get? helts).trans ?_
    cases elts with
    | list => cases h; rfl
    | _ => cases h
  next hother =>
    cases h
    have hkind : v.isKind .tuple = false := by
      cases v with
      | node k as =>
        have hk : k ≠ .tuple := fun e => hother as (by rw [e])
        simpa [isKind, kind?] using hk
      | _ => rfl
    rw [if_neg (by simp [hkind])]

theorem value_of_arguments? (h : v.arguments? = some args) :
    ∃ arg, v.attr "value" = .ok arg ∧
      (if arg.isKind .tuple then arg.attr "elts" else .ok (list [arg])) = .ok (list args) := by
  unfold arguments? at h
  split at h
  · obtain ⟨arg, harg, h⟩ := Option.bind_eq_some_iff.mp h
    exact ⟨arg, attr_of_get? harg, elts_of_argumentsOf? h⟩
  · cases h

theorem candidate?_of_reading? {c : Option (String × List Value)} (h : v.reading? = some c) :
    v.candidate? = .ok (c.map fun c => (str c.1, list c.2)) := by
  unfold reading? at h
  split at h
  · obtain ⟨s, hs, h⟩ := Option.map_eq_some_iff.mp h
    subst h
    simp [candidate?, kind?, attr_of_nameId? hs, bind, Except.bind, pure, Except.pure]
  · split at h
    next head brackets hhead hbrackets =>
      simp only [candidate?, kind?, attr_of_get? hhead, attr_of_get? hbrackets, bind, Except.bind,
        pure, Except.pure]
      split at h
      next hname =>
        obtain ⟨s, hs, h⟩ := Option.bind_eq_some_iff.mp h
        obtain ⟨args, hargs, h⟩ := Option.map_eq_some_iff.mp h
        subst h
        obtain ⟨arg, harg, helts⟩ := value_of_arguments? hargs
        rw [if_pos hname, harg]
        simp only
        split at helts
        next htuple => rw [if_pos htuple, helts, attr_of_nameId? hs]; rfl
        next htuple => cases helts; rw [if_neg htuple, attr_of_nameId? hs]; rfl
      next hname =>
        cases h
        rw [if_neg hname]
        rfl
    next => cases h
  next hname hsubscript =>
    cases h
    cases v with
    | node k as =>
      simp only [candidate?, kind?]
      split
      next hk => cases hk; exact (hname as rfl).elim
      next hk => cases hk; exact (hsubscript as rfl).elim
      next => rfl
    | _ => rfl

/-! ## Fields that hold what belongs there -/

end Value

namespace Kind

/-- Each field of a node holds what belongs there. -/
def obeys (k : Kind) (as : Attrs) : Bool :=
  k.category?.isSome && (k.fields.zip k.contents).all fun (f, c) =>
    match get? as f.name with
    | some v => c.admits v
    | none => f.optional

theorem obeys_of_conforms {as : Attrs} (h : k.conforms as) : k.obeys as := by
  obtain ⟨h, hfields⟩ := Bool.and_eq_true_iff.mp h
  exact Bool.and_eq_true_iff.mpr ⟨(Bool.and_eq_true_iff.mp h).1, hfields⟩

theorem admits_none_of_optional :
    ∀ p ∈ k.fields.zip k.contents, p.1.optional → p.2.admits .none := by
  cases k <;> decide

end Kind

namespace Value

@[simp] theorem isNone_shape (v : Value) : v.shape.isNone = v.isNone := isNone_outline v

@[simp] theorem isOf_shape (c : Category) (v : Value) : v.shape.isOf c = v.isOf c := by
  rw [isOf, isOf, kind?_shape]

theorem isLiteral_shape (v : Value) : v.shape.isLiteral = v.isLiteral := by
  cases v with
  | node k as => rw [shape_node]; rfl
  | list xs => rw [shape_list]; rfl
  | _ => rw [shape_other rfl rfl]

end Value

theorem Content.admits_shape (c : Content) (v : Value) : c.admits v.shape = c.admits v := by
  cases c with
  | one | optional | text | optionalText => simp [admits]
  | literal => exact Value.isLiteral_shape v
  | many | sparse | texts =>
    cases v with
    | node k as => rw [Value.shape_node]; rfl
    | list xs => simp [Value.shape_list, admits, Function.comp_def]
    | _ => rw [Value.shape_other rfl rfl]
  | number | optionalNumber =>
    cases v with
    | node k as => rw [Value.shape_node]; rfl
    | list xs => rw [Value.shape_list]; rfl
    | _ => rw [Value.shape_other rfl rfl]

theorem Kind.obeys_outlineAttrs (k : Kind) (as : Attrs) :
    k.obeys (Value.outlineAttrs (fun _ => true) k as) = k.obeys as := by
  unfold obeys
  congr 1
  rw [Bool.eq_iff_iff, List.all_eq_true, List.all_eq_true]
  refine forall₂_congr fun (f, c) hfc => ?_
  have hget : get? (Value.outlineAttrs (fun _ => true) k as) f.name = _ :=
    Value.get?_outlineAttrs (List.of_mem_zip hfc).1
  have hnone := k.admits_none_of_optional (f, c) hfc
  simp only [hget, Value.outlineAt, Value.field?, ↓reduceIte]
  cases get? as f.name with
  | some v => exact Bool.eq_iff_iff.mp (c.admits_shape v)
  | none =>
    cases hopt : f.optional with
    | true =>
      have hshape : Value.outline (fun _ => true) Value.none = .none := rfl
      simpa [hshape] using hnone hopt
    | false => simp

theorem Kind.exists_of_obeys {as : Attrs} (h : k.obeys as) {c : Content}
    (hf : (Field.req name, c) ∈ k.fields.zip k.contents) :
    ∃ v, get? as name = some v ∧ c.admits v := by
  have hfield := List.all_eq_true.mp (Bool.and_eq_true_iff.mp h).2 _ hf
  cases hg : get? as name with
  | none => simp [Field.req, hg] at hfield
  | some v => exact ⟨v, rfl, by simpa [Field.req, hg] using hfield⟩

namespace Value

variable {k : Kind} {as : Attrs} {v : Value} {p : Kind → Attrs → Bool}

theorem one_of_obeys (h : (node k as).every p) (hown : k.obeys as) (name : String) (c : Category)
    (hf : (Field.req name, .one c) ∈ k.fields.zip k.contents) :
    ∃ u, get? as name = some u ∧ u.isOf c ∧ u.every p := by
  obtain ⟨u, hu, hc⟩ := Kind.exists_of_obeys hown hf
  have hfield : name ∈ k.fieldNames :=
    List.mem_map_of_mem (f := Field.name) (List.of_mem_zip hf).1
  exact ⟨u, hu, hc, (every_node.mp h).2 u (mem_children_of_get? hfield hu (isNode_of_isOf hc))⟩

theorem many_of_obeys (h : (node k as).every p) (hown : k.obeys as) (name : String) (c : Category)
    (hf : (Field.req name, .many c) ∈ k.fields.zip k.contents) :
    ∃ xs, get? as name = some (list xs) ∧
      ∀ u ∈ xs, u.isOf c ∧ u.every p := by
  obtain ⟨u, hu, hc⟩ := Kind.exists_of_obeys hown hf
  have hfield : name ∈ k.fieldNames :=
    List.mem_map_of_mem (f := Field.name) (List.of_mem_zip hf).1
  obtain ⟨xs, rfl, hxs⟩ := exists_of_admits_many hc
  exact ⟨xs, hu, fun u hmem => ⟨hxs u hmem,
    (every_node.mp h).2 u (mem_children_of_mem hfield hu hmem (isNode_of_isOf (hxs u hmem)))⟩⟩

/-! ## Nothing to fill in -/

private theorem lacksContext_of_obeys (h : k.obeys as) : lacksContext k as = false := by
  have hfield : k.hasField "ctx" →
      (Field.req "ctx", Content.one .context) ∈ k.fields.zip k.contents := by
    cases k <;> decide
  unfold lacksContext
  cases hctx : k.hasField "ctx" with
  | false => rfl
  | true =>
    obtain ⟨u, hu, hc⟩ := Kind.exists_of_obeys h (hfield hctx)
    obtain ⟨j, bs, rfl, -⟩ := exists_of_isOf hc
    rw [hu]
    rfl

private theorem requireAttrs_of_obeys (h : k.obeys as) :
    (node k as).requireAttrs ((Context.ofChildren k).map (·.1)) = .ok () := by
  obtain ⟨hcategory, hfields⟩ := Bool.and_eq_true_iff.mp h
  have hlength : k.category?.isSome → k.fields.length ≤ k.contents.length := by
    cases k <;> decide
  refine requireAttrs_eq_ok fun name hname => ?_
  obtain ⟨f, hf, rfl⟩ :=
    List.mem_map.mp (Context.mem_fieldNames_of_ofChildren k name hname).1
  rw [← List.map_fst_zip (hlength hcategory)] at hf
  obtain ⟨⟨f, c⟩, hfc, rfl⟩ := List.mem_map.mp hf
  have hfield := List.all_eq_true.mp hfields _ hfc
  rw [attr?_field (List.of_mem_zip hfc).1, field?]
  cases hget : get? as f.name with
  | some v => rfl
  | none =>
    simp only [hget] at hfield
    simp [hfield]

theorem placeContexts_of_obeys (hn : v.isNode) (h : v.every Kind.obeys)
    (c : Context) : v.placeContexts c = (.ok v : Except Error Value) := by
  induction v using walkInduction generalizing c with
  | node k as ih =>
    obtain ⟨hown, hchildren⟩ := every_node.mp h
    refine placeContexts_node_of_same (lacksContext_of_obeys hown) (requireAttrs_of_obeys hown)
      fun f hf u hu => ?_
    have hmem : u ∈ children k as := mem_children.mpr ⟨f, hf, hu⟩
    exact ih u hmem (isNode_of_mem_children hmem) (hchildren u hmem) _
  | rest v hrest ih => rw [hn] at hrest; cases hrest

theorem fixContexts_suite {xs : List Value} (hn : ∀ u ∈ xs, u.isNode)
    (h : ∀ u ∈ xs, u.every Kind.obeys) :
    (list xs).fixContexts = (.ok (suite xs) : Except Error Value) := by
  have hitems : xs.mapM (fun u => (u.placeContexts .load : Except Error Value)) = .ok xs := by
    rw [except_mapM_of_ok fun u hu => placeContexts_of_obeys (hn u hu) (h u hu) .load, List.map_id']
  rw [fixContexts, placeContexts, fold_list, foldItems_eq, List.mapM_map]
  exact congrArg (· >>= fun ys => pure (suite ys)) hitems

/-! ## Heads in well-formed trees -/

private theorem obeys_of_every (h : (node k as).every Kind.conforms) : k.obeys as :=
  Kind.obeys_of_conforms (every_node.mp h).1

private theorem nameId?_of_conforms (h : (node .name as).every Kind.conforms) :
    ∃ s, (node .name as).nameId? = some s := by
  obtain ⟨u, hu, hc⟩ := Kind.exists_of_conforms (every_node.mp h).1 "id" .text (by decide)
  obtain ⟨s, rfl⟩ := exists_of_isText hc
  exact ⟨s, by rw [nameId?, hu]; rfl⟩

private theorem argumentsOf?_of_conforms (h : v.every Kind.conforms) :
    ∃ args, v.argumentsOf? = some args := by
  unfold argumentsOf?
  split
  next cs =>
    obtain ⟨xs, hxs, -⟩ := many_of_obeys h (obeys_of_every h) "elts" .expr (by decide)
    exact ⟨xs, by rw [hxs]; rfl⟩
  · exact ⟨_, rfl⟩

private theorem arguments?_of_conforms (h : (node .index as).every Kind.conforms) :
    ∃ args, (node .index as).arguments? = some args := by
  obtain ⟨u, hu, -, hall⟩ := one_of_obeys h (obeys_of_every h) "value" .expr (by decide)
  obtain ⟨args, hargs⟩ := argumentsOf?_of_conforms hall
  exact ⟨args, by rw [arguments?, hu]; exact hargs⟩

private theorem attr_of_not_index (h : v.every Kind.conforms) (hc : v.isOf .slice)
    (hi : v.isKind .index = false) :
    ∃ e, e.kind = .attributeError ∧ v.attr "value" = .error e := by
  obtain ⟨k, as, rfl, hk⟩ := exists_of_isOf hc
  have hnot : k = .slice ∨ k = .extSlice := by
    cases k <;> first | (cases hk; done) | simp_all [isKind, kind?]
  have hget : get? as "value" = .none := by
    refine Kind.get?_eq_none_of_conforms (every_node.mp h).1 ?_
    rcases hnot with rfl | rfl <;> decide +kernel
  have hattr : (node k as).attr? "value" = .none := by
    have hdefault : k.default? "value" = false := by rcases hnot with rfl | rfl <;> decide +kernel
    rcases hnot with rfl | rfl <;> simp [attr?, hget, hdefault]
  exact ⟨.fault (.noAttribute _ _), rfl, by rw [attr, hattr]⟩

theorem reading?_of_conforms (h : v.every Kind.conforms) :
    if v.slicesName then ∃ e, e.kind = .attributeError ∧ v.candidate? = .error e
    else ∃ c, v.reading? = some c := by
  cases v with
  | node k as =>
    by_cases hname : k = .name
    · subst hname
      obtain ⟨s, hs⟩ := nameId?_of_conforms h
      exact ⟨some (s, []), by rw [reading?, hs]; rfl⟩
    · by_cases hsubscript : k = .subscript
      · subst hsubscript
        obtain ⟨head, hhead, -, hheadc⟩ :=
          one_of_obeys h (obeys_of_every h) "value" .expr (by decide)
        obtain ⟨brackets, hbrackets, hslice, hbracketsc⟩ :=
          one_of_obeys h (obeys_of_every h) "slice" .slice (by decide)
        simp only [slicesName, hhead, hbrackets, reading?]
        cases hn : head.isKind .name with
        | false => simp
        | true =>
          obtain ⟨bs, rfl⟩ := exists_of_isKind hn
          obtain ⟨s, hs⟩ := nameId?_of_conforms hheadc
          cases hi : brackets.isKind .index with
          | false =>
            obtain ⟨e, he, hattr⟩ := attr_of_not_index hbracketsc hslice hi
            refine ⟨e, he, ?_⟩
            simp only [candidate?, kind?, attr_of_get? hhead, attr_of_get? hbrackets, bind,
              Except.bind, hn, ↓reduceIte, hattr]
          | true =>
            obtain ⟨cs, rfl⟩ := exists_of_isKind hi
            obtain ⟨args, hargs⟩ := arguments?_of_conforms hbracketsc
            exact ⟨some (s, args), by simp [hs, hargs]⟩
      · rw [slicesName.eq_def, reading?.eq_def]
        simp [hname, hsubscript]
  | _ => exact ⟨.none, rfl⟩

end Value

end TreeMacros
