import Mathlib.Data.List.Basic
import TreeMacros.Proofs.Labels
import TreeMacros.Tree.Rebuild

/-!
# Children

The nodes that a walk meets directly below a node, and conditions on all nodes that it meets on
its way down. Labels do not matter to such a condition if they do not matter at each node.
-/

namespace TreeMacros

variable {as : Attrs} {name : String} {u v : Value} {k : Kind} {xs : List Value}

namespace Value

@[simp] theorem kind?_unlabelled (v : Value) : v.unlabelled.kind? = v.kind? := by
  cases v <;> simp [unlabelled, kind?]

@[simp] theorem isNode_unlabelled (v : Value) : v.unlabelled.isNode = v.isNode := by
  cases v <;> simp [unlabelled, isNode]

@[simp] theorem isKind_unlabelled (v : Value) (k : Kind) : v.unlabelled.isKind k = v.isKind k := by
  rw [isKind, isKind, kind?_unlabelled]

theorem attr_of_get? (h : Attrs.get? as name = some v) : (node k as).attr name = .ok v := by
  simp [attr, attr?, h]

def childrenAt (as : Attrs) (name : String) : List Value :=
  match Attrs.get? as name with
  | some (node k bs) => [node k bs]
  | some (list xs) => xs.filter (·.isNode)
  | _ => []

/-- The node children of a node, in the order of the grammar. -/
def children (k : Kind) (as : Attrs) : List Value := k.fieldNames.flatMap (childrenAt as)

theorem mem_childrenAt :
    u ∈ childrenAt as name ↔
      u.isNode ∧ (Attrs.get? as name = some u ∨
        ∃ xs, Attrs.get? as name = some (list xs) ∧ u ∈ xs) := by
  unfold childrenAt
  split
  next k bs h =>
    rw [h, List.mem_singleton]
    constructor
    · rintro rfl
      exact ⟨rfl, .inl rfl⟩
    · rintro ⟨-, h | ⟨xs, h, -⟩⟩
      · exact (Option.some.inj h).symm
      · cases h
  next xs h =>
    rw [h, List.mem_filter]
    constructor
    · rintro ⟨hu, hn⟩
      exact ⟨hn, .inr ⟨xs, rfl, hu⟩⟩
    · rintro ⟨hn, h | ⟨ys, h, hu⟩⟩
      · cases h
        cases hn
      · cases h
        exact ⟨hu, hn⟩
  next hnode hlist =>
    constructor
    · intro h
      cases h
    · rintro ⟨hn, h | ⟨xs, h, -⟩⟩
      · cases u with
        | node k bs => exact (hnode k bs h).elim
        | _ => cases hn
      · exact (hlist xs h).elim

theorem mem_children : u ∈ children k as ↔ ∃ name ∈ k.fieldNames, u ∈ childrenAt as name := by
  rw [children, List.mem_flatMap]

theorem mem_children_of_get? (hf : name ∈ k.fieldNames) (h : Attrs.get? as name = some u)
    (hn : u.isNode) : u ∈ children k as :=
  mem_children.mpr ⟨name, hf, mem_childrenAt.mpr ⟨hn, .inl h⟩⟩

theorem mem_children_of_mem (hf : name ∈ k.fieldNames) (h : Attrs.get? as name = some (list xs))
    (hu : u ∈ xs) (hn : u.isNode) : u ∈ children k as :=
  mem_children.mpr ⟨name, hf, mem_childrenAt.mpr ⟨hn, .inr ⟨xs, h, hu⟩⟩⟩

theorem isNode_of_mem_children (h : u ∈ children k as) : u.isNode := by
  obtain ⟨name, -, hu⟩ := mem_children.mp h
  exact (mem_childrenAt.mp hu).1

theorem sizeOf_lt_of_mem_children (h : u ∈ children k as) : sizeOf u < sizeOf (node k as) := by
  obtain ⟨name, -, hu⟩ := mem_children.mp h
  obtain ⟨-, h | ⟨xs, h, hxs⟩⟩ := mem_childrenAt.mp hu
  · exact sizeOf_lt_of_mem_held (mem_held_of_get? h)
  · exact Nat.lt_trans (sizeOf_lt_of_mem_held (v := list xs) hxs)
      (sizeOf_lt_of_mem_held (mem_held_of_get? h))

@[elab_as_elim]
theorem partInduction {P : Value → Prop}
    (node : ∀ k as, (∀ u ∈ children k as, P u) →
      (∀ name u, Attrs.get? as name = some u → P u) → P (node k as))
    (rest : ∀ v, v.isNode = false → (∀ u ∈ v.held, P u) → P v) (v : Value) : P v := by
  cases v with
  | node k as =>
    refine node k as (fun u hu => ?_) fun name u hu => ?_
    · have := sizeOf_lt_of_mem_children hu
      exact partInduction node rest u
    · have := sizeOf_lt_of_mem_held (mem_held_of_get? (k := k) hu)
      exact partInduction node rest u
  | _ =>
    exact rest _ rfl fun u hu =>
      have := sizeOf_lt_of_mem_held hu
      partInduction node rest u
termination_by sizeOf v
decreasing_by all_goals assumption

theorem exists_of_isKind (h : v.isKind k) : ∃ as, v = node k as := by
  cases v with
  | node j as =>
    have hj : j = k := by simpa [isKind, kind?] using h
    exact ⟨as, by rw [hj]⟩
  | _ => simp [isKind, kind?] at h

@[elab_as_elim]
theorem walkInduction {P : Value → Prop}
    (node : ∀ k as, (∀ u ∈ children k as, P u) → P (node k as))
    (rest : ∀ v, v.isNode = false → (∀ u ∈ v.held, P u) → P v) (v : Value) : P v :=
  partInduction (fun k as h _ => node k as h) rest v

theorem hasLabels_of_mem_children (h : (node k as).hasLabels) (hu : u ∈ children k as) :
    u.hasLabels := by
  obtain ⟨name, -, hu⟩ := mem_children.mp hu
  obtain ⟨-, hg | ⟨xs, hg, hxs⟩⟩ := mem_childrenAt.mp hu
  · exact hasLabels_of_get? h hg
  · exact hasLabels_list.mp (hasLabels_of_get? h hg) u hxs

theorem childrenAt_unlabelledAttrs (h : Attrs.isHidden name = false) (as : Attrs) :
    childrenAt (unlabelledAttrs as) name = (childrenAt as name).map unlabelled := by
  unfold childrenAt
  rw [get?_unlabelledAttrs h]
  rcases Attrs.get? as name with _ | v
  · rfl
  · cases v with
    | node k bs => simp [unlabelled]
    | list xs =>
      simp only [Option.map_some, unlabelled, unlabelledItems_eq, List.filter_map]
      congr 1
      exact List.filter_congr fun x _ => by simp
    | _ => simp [unlabelled]

theorem children_unlabelledAttrs (k : Kind) (as : Attrs) :
    children k (unlabelledAttrs as) = (children k as).map unlabelled := by
  unfold children
  rw [List.map_flatMap]
  exact List.flatMap_congr fun name hname =>
    childrenAt_unlabelledAttrs (Kind.isHidden_of_mem hname) as

/-! ## Outcomes of folds -/

section

variable {β : Type} (onNode : Kind → Attrs → Parts β → β)
  (onRest : Value → List (Item β) → List (Item β) → β)

theorem lookup_foldAttrs (as : Attrs) (name : String) :
    (foldAttrs onNode onRest as).lookup name =
      (Attrs.get? as name).map (foldPart onNode onRest) := by
  induction as with
  | nil => rfl
  | cons a as ih =>
    obtain ⟨n, v⟩ := a
    rw [foldAttrs, List.lookup_cons, ih, Attrs.get?_cons]
    by_cases h : name = n
    · simp [h]
    · simp [beq_eq_false_iff_ne.mpr h, h]

theorem fold_tuple (xs : List Value) :
    fold onNode onRest (tuple xs) = onRest (tuple xs) (foldItems onNode onRest xs) [] := rfl

theorem fold_set (xs : List Value) :
    fold onNode onRest (set xs) = onRest (set xs) (foldItems onNode onRest xs) [] := rfl

theorem fold_dict (es : List (Value × Value)) :
    fold onNode onRest (dict es) =
      onRest (dict es) (foldKeys onNode onRest es) (foldValues onNode onRest es) := rfl

theorem foldKeys_eq (es : List (Value × Value)) :
    foldKeys onNode onRest es = es.map fun e => ⟨e.1, fold onNode onRest e.1⟩ := by
  induction es with
  | nil => rfl
  | cons e es ih => simp [foldKeys, ih, fold]

theorem foldValues_eq (es : List (Value × Value)) :
    foldValues onNode onRest es = es.map fun e => ⟨e.2, fold onNode onRest e.2⟩ := by
  induction es with
  | nil => rfl
  | cons e es ih => simp [foldValues, ih, fold]

theorem mem_items_foldPart {i : Item β} (h : i ∈ (foldPart onNode onRest v).items) :
    ∃ u ∈ v.held, i = ⟨u, fold onNode onRest u⟩ := by
  cases v with
  | list xs | tuple xs | set xs | frozenset xs =>
    rw [foldPart, foldItems_eq] at h
    obtain ⟨u, hu, rfl⟩ := List.mem_map.mp h
    exact ⟨u, hu, rfl⟩
  | dict es =>
    rw [foldPart, foldKeys_eq] at h
    obtain ⟨e, he, rfl⟩ := List.mem_map.mp h
    exact ⟨e.1, List.mem_append_left _ (List.mem_map_of_mem he), rfl⟩
  | _ => cases h

theorem elements?_of_elements (h : v.elements = .ok xs) : v.elements? = some xs := by
  unfold elements at h
  split at h
  next hxs => rw [hxs, Except.ok.inj h]
  next => cases h

theorem items_foldPart (h : v.elements? = some xs) (hu : u ∈ xs) (hn : u.isNode) :
    (foldPart onNode onRest v).items = xs.map fun u => ⟨u, fold onNode onRest u⟩ := by
  cases v with
  | list ys | tuple ys | set ys | frozenset ys =>
    cases h
    exact foldItems_eq onNode onRest xs
  | dict es =>
    cases h
    rw [foldPart, foldKeys_eq, List.map_map]
    rfl
  | str s | bytes s =>
    cases h
    obtain ⟨c, -, rfl⟩ := List.mem_map.mp hu
    cases hn
  | _ => cases h

theorem childItems_foldAttrs (k : Kind) (as : Attrs) :
    childItems k (foldAttrs onNode onRest as) =
      (children k as).map fun v => ⟨v, fold onNode onRest v⟩ := by
  unfold childItems children
  rw [List.map_flatMap]
  refine List.flatMap_congr fun name _ => ?_
  rw [lookup_foldAttrs, childrenAt]
  rcases Attrs.get? as name with _ | v
  · rfl
  · cases v with
    | list xs =>
      simp only [Option.map_some, foldPart, foldItems_eq, List.filter_map]
      rfl
    | _ => rfl

end

/-! ## Conditions on all nodes -/

/-- The condition holds of the nodes in a tree or a list of trees. The nodes below a node count if
`enter` admits its kind. -/
def throughout (enter : Kind → Bool) (p : Kind → Attrs → Bool) : Value → Bool :=
  fold (fun k as parts => p k as && (!enter k || (childItems k parts).all (·.result)))
    fun v items _ =>
      match v with
      | list _ => items.all (·.result)
      | _ => true

section

variable {enter : Kind → Bool} {p : Kind → Attrs → Bool}

theorem throughout_node_eq (k : Kind) (as : Attrs) :
    (node k as).throughout enter p =
      (p k as && (!enter k || (children k as).all (throughout enter p))) := by
  rw [throughout, fold_node, childItems_foldAttrs, List.all_map]
  rfl

theorem throughout_node :
    (node k as).throughout enter p ↔
      p k as = true ∧ (enter k → ∀ u ∈ children k as, u.throughout enter p) := by
  rw [throughout_node_eq, Bool.and_eq_true, Bool.or_eq_true, List.all_eq_true]
  cases enter k <;> simp

theorem throughout_list :
    (list xs).throughout enter p ↔ ∀ x ∈ xs, x.throughout enter p := by
  rw [throughout, fold_list, foldItems_eq]
  simp only [List.all_map, List.all_eq_true]
  rfl

theorem throughout_other (hn : v.isNode = false) (hl : v.isList = false) :
    v.throughout enter p := by
  cases v with
  | node => cases hn
  | list => cases hl
  | _ => rfl

theorem throughout_of_forall (h : ∀ k as, p k as) (v : Value) :
    v.throughout enter p := by
  induction v using walkInduction with
  | node k as ih => exact throughout_node.mpr ⟨h k as, fun _ => ih⟩
  | rest v hn ih =>
    cases v with
    | node => cases hn
    | list xs => exact throughout_list.mpr ih
    | _ => exact throughout_other rfl rfl

theorem throughout_mono {q : Kind → Attrs → Bool} (h : ∀ k as, p k as → q k as)
    (hv : v.throughout enter p) : v.throughout enter q := by
  induction v using walkInduction with
  | node k as ih =>
    obtain ⟨hat, hbelow⟩ := throughout_node.mp hv
    exact throughout_node.mpr ⟨h k as hat, fun henter u hu => ih u hu (hbelow henter u hu)⟩
  | rest v hn ih =>
    cases v with
    | node => cases hn
    | list xs => exact throughout_list.mpr fun x hx => ih x hx (throughout_list.mp hv x hx)
    | _ => exact throughout_other rfl rfl

theorem throughout_unlabelled (hp : ∀ k as, p k (unlabelledAttrs as) = p k as) (v : Value) :
    v.unlabelled.throughout enter p = v.throughout enter p := by
  induction v using walkInduction with
  | node k as ih =>
    rw [unlabelled, throughout_node_eq, throughout_node_eq, hp, children_unlabelledAttrs,
      List.all_map]
    congr 2
    rw [Bool.eq_iff_iff, List.all_eq_true, List.all_eq_true]
    exact forall₂_congr fun u hu => by rw [Function.comp_apply, ih u hu]
  | rest v hn ih =>
    cases v with
    | node => cases hn
    | list xs =>
      rw [unlabelled, unlabelledItems_eq, Bool.eq_iff_iff, throughout_list, throughout_list,
        List.forall_mem_map]
      exact forall₂_congr fun u hu => by rw [ih u hu]
    | _ => rw [unlabelled_other rfl rfl]

theorem throughout_labelled (hp : ∀ k as, p k (unlabelledAttrs as) = p k as) (v : Value) (n : Nat) :
    (v.labelled n).1.throughout enter p = v.throughout enter p := by
  rw [← throughout_unlabelled hp, unlabelled_labelled, throughout_unlabelled hp]

end

/-! ## What all nodes have -/

/-- What is found at the nodes of a tree or of a list of trees, in the order of a walk. -/
def collected (here : Kind → Attrs → List Value) : Value → List Value :=
  fold (fun k as parts => here k as ++ (childItems k parts).flatMap (·.result))
    fun v items _ =>
      match v with
      | list _ => items.flatMap (·.result)
      | _ => []

theorem collected_node (here : Kind → Attrs → List Value) (k : Kind) (as : Attrs) :
    (node k as).collected here = here k as ++ (children k as).flatMap (collected here) := by
  rw [collected, fold_node, childItems_foldAttrs, List.flatMap_map]

theorem collected_list (here : Kind → Attrs → List Value) (xs : List Value) :
    (list xs).collected here = xs.flatMap (collected here) := by
  rw [collected, fold_list, foldItems_eq]
  exact List.flatMap_map ..

end Value

end TreeMacros
