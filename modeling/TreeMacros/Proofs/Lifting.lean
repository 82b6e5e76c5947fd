import TreeMacros.Proofs.Children
import TreeMacros.Quotation.Lift

/-!
# Lifting containers and nodes

Code for a container is made of code for its elements, in their order, and code for a node is a
call with code for its fields, in the order of the grammar.
-/

namespace TreeMacros.Quotation

section

variable {m : Type → Type} [Monad m] [LawfulMonad m] [MonadExceptOf Error m]
  (captured : Value → m (Option String))

theorem lift_list (xs : List Value) : lift captured (.list xs) =
    xs.mapM (lift captured) >>= fun codes => pure (.node .list [("elts", .list codes)]) := by
  rw [lift, Value.fold_list, Value.foldItems_eq]
  simp only [List.mapM_map]
  rfl

theorem lift_tuple (xs : List Value) : lift captured (.tuple xs) =
    xs.mapM (lift captured) >>= fun codes => pure (.node .tuple [("elts", .list codes)]) := by
  rw [lift, Value.fold_tuple, Value.foldItems_eq]
  simp only [List.mapM_map]
  rfl

theorem lift_set (xs : List Value) : lift captured (.set xs) =
    xs.mapM (lift captured) >>= fun codes => pure (.node .set [("elts", .list codes)]) := by
  rw [lift, Value.fold_set, Value.foldItems_eq]
  simp only [List.mapM_map]
  rfl

theorem lift_dict (es : List (Value × Value)) : lift captured (.dict es) =
    (es.map (·.1)).mapM (lift captured) >>= fun keys =>
      (es.map (·.2)).mapM (lift captured) >>= fun values =>
        pure (.node .dict [("keys", .list keys), ("values", .list values)]) := by
  rw [lift, Value.fold_dict, Value.foldKeys_eq, Value.foldValues_eq]
  simp only [List.mapM_map]
  rfl

omit [MonadExceptOf Error m] in
private theorem liftFields_foldAttrs {onNode : Kind → Attrs → Parts (m Value) → m Value}
    {onRest : Value → List (Item (m Value)) → List (Item (m Value)) → m Value}
    (hnone : Value.fold onNode onRest .none = pure (constantOf .none)) (as : Attrs)
    (fs : List Field) :
    liftFields (Value.foldAttrs onNode onRest as) fs =
      (fs.filterMap (Value.field? as)).mapM fun f => do
        return (f.1, ← Value.fold onNode onRest f.2) := by
  induction fs with
  | nil => rfl
  | cons f fs ih =>
    rw [liftFields, Value.lookup_foldAttrs, List.filterMap_cons, Value.field?]
    cases Attrs.get? as f.name with
    | some v =>
      simp only [Option.map_some, List.mapM_cons, ih, bind_assoc, pure_bind]
      rfl
    | none =>
      cases f.optional with
      | true => simp [List.mapM_cons, ih, hnone]
      | false => simp [ih]

theorem lift_node {k : Kind} (hk : k.isMarker = false) (as : Attrs) :
    lift captured (.node k as) =
      (Value.node k as).fields.mapM (fun f => do return (f.1, ← lift captured f.2)) >>= fun codes =>
        pure (buildCall (.node k as) codes) := by
  have hliteral : k ≠ .literal := by
    rintro rfl
    cases hk
  have hcapture : k ≠ .captureLater := by
    rintro rfl
    cases hk
  rw [lift, Value.fold_node]
  simp only [beq_eq_false_iff_ne.mpr hliteral, beq_eq_false_iff_ne.mpr hcapture, hk,
    Bool.false_eq_true, ↓reduceIte]
  rw [liftFields_foldAttrs rfl]
  rfl

omit [LawfulMonad m] in
/-- Markers that quotation does not know cannot be lifted, and the attempt to name one may fail
in its own way. -/
theorem lift_marker {k : Kind} (hk : k.isMarker) (hliteral : k ≠ .literal)
    (hcapture : k ≠ .captureLater) (as : Attrs) :
    lift captured (.node k as) = liftExcept ((Value.node k as).source false) >>= fun text =>
      throw (.report (.liftMarker text) none) := by
  rw [lift, Value.fold_node]
  simp only [beq_eq_false_iff_ne.mpr hliteral, beq_eq_false_iff_ne.mpr hcapture, hk,
    Bool.false_eq_true, ↓reduceIte]

end

end TreeMacros.Quotation
