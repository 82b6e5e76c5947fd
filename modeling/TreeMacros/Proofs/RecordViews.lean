import TreeMacros.Proofs.Passes
import TreeMacros.Record

/-!
# The two views of a record

A record can be read through attributes and through keys. Both give the same for each name that is not
reserved. A reserved name is a key only if it was written as one: of the ways to write a name,
assigning an attribute is the only one that looks at the reserved names.
-/

namespace TreeMacros

variable {es fs : Dictionary} {key v : Value} {name : String}

namespace Dictionary

theorem contains_eq_any (es : Dictionary) (key : Value) :
    es.contains key = es.any (·.1.same key) := by
  unfold contains
  induction es with
  | nil => rfl
  | cons e es ih =>
    rw [find?, List.any_cons, ← ih]
    split <;> simp_all

theorem contains_of_insert {k : Value} (h : (es.insert k v).contains key) :
    es.contains key ∨ k.same key := by
  simp only [contains_eq_any] at h ⊢
  induction es with
  | nil => simpa [insert] using h
  | cons e es ih =>
    rw [insert] at h
    split at h
    · exact .inl (by simpa using h)
    · rw [List.any_cons, Bool.or_eq_true] at h ⊢
      rcases h with h | h
      · exact .inl (.inl h)
      · exact (ih h).imp_left .inr

theorem contains_of_insertAll (h : (es.insertAll fs).contains key) :
    es.contains key ∨ fs.any (·.1.same key) := by
  induction fs generalizing es with
  | nil => exact .inl h
  | cons f fs ih =>
    rw [List.any_cons, Bool.or_eq_true]
    rcases ih h with h | h
    · exact (contains_of_insert h).imp_right .inl
    · exact .inr (.inr h)

theorem contains_of_sublist (h : es.Sublist fs) (hes : es.contains key) : fs.contains key := by
  rw [contains_eq_any, List.any_eq_true] at hes ⊢
  obtain ⟨e, he, hkey⟩ := hes
  exact ⟨e, h.subset he, hkey⟩

theorem erase_sublist (es : Dictionary) (key : Value) : (es.erase key).Sublist es := by
  induction es with
  | nil => exact .slnil
  | cons e es ih =>
    rw [erase]
    split
    · exact List.sublist_cons_self ..
    · exact ih.cons_cons _

end Dictionary

namespace Record

/-- What can be done to a record. -/
inductive Op where
  | setAttr (name : String) (v : Value)
  | eraseAttr (name : String)
  | set (key v : Value)
  | erase (key : Value)
  | update (es : Dictionary)
  | setDefault (key default : Value)
  | pop (key : Value) (default : Option Value)
  | popLast
  | clear
  | copy

namespace Op

def run (r : Record) : Op → Except Error Record
  | setAttr name v => r.setAttr name v
  | eraseAttr name => r.eraseAttr name
  | set key v => r.set key v
  | erase key => r.erase key
  | update es => r.update es
  | setDefault key default => do return (← r.setDefault key default).2
  | pop key default => do return (← r.pop key default).2
  | popLast => do return (← r.popLast).2
  | clear => r.clear
  | copy => r.copy

/-- The record after an operation: an operation that fails changes nothing. -/
def after (r : Record) (op : Op) : Record := (op.run r).toOption.getD r

/-- The operation does not replace the insides of a record. -/
def sparesInsides : Op → Bool
  | setAttr name _ => name != "_data" && name != "_reserved_names"
  | _ => true

/-- The operation writes the name as a key. -/
def putsKey (name : String) : Op → Bool
  | set key _ | setDefault key _ => key.same (.str name)
  | update es => es.any (·.1.same (.str name))
  | _ => false

end Op

/-! ## What operations leave -/

theorem isReserved_ofEntries (es : Dictionary) (name : String) :
    (ofEntries es).isReserved name = .ok (reservedNames.contains name) := by
  have hsame (s : String) : (Value.str s).same (.str name) = (name == s) := by
    rw [Value.same, BEq.comm]
  simp only [isReserved, ofEntries, Value.elements?, List.any_map, Function.comp_def, hsame]
  rw [List.contains_eq_any_beq]

theorem setAttr_ofEntries (h : name ≠ "_data" ∧ name ≠ "_reserved_names") (es : Dictionary)
    (v : Value) : (ofEntries es).setAttr name v =
      if reservedNames.contains name then .error (.report (.reservedName name) none)
      else .ok (ofEntries (es.insert (.str name) v)) := by
  unfold setAttr
  split
  · exact absurd rfl h.1
  · exact absurd rfl h.2
  · rw [isReserved_ofEntries]
    rfl

private theorem asKey_eq_ok {k : Value} (h : key.asKey = .ok k) : k = key := by
  unfold Value.asKey at h
  split at h <;> cases h
  rfl

private theorem eq_of_keywords (h : keywords es = .ok fs) : fs = es := by
  unfold keywords at h
  split at h <;> cases h
  rfl

theorem eq_ofEntries_of_make {r : Record} (h : make es = .ok r) : r = ofEntries es := by
  obtain ⟨fs, hfs, h⟩ := except_bind_eq_ok.mp h
  cases h
  rw [eq_of_keywords hfs]

/-- A reserved name is among the keys after an operation only if it was there before, or is written
as a key. -/
theorem exists_of_run {op : Op} {r : Record} (h : op.sparesInsides)
    (hrun : op.run (ofEntries es) = .ok r) :
    ∃ fs, r = ofEntries fs ∧ ∀ name ∈ reservedNames,
      fs.contains (.str name) → es.contains (.str name) ∨ op.putsKey name := by
  have hfewer {fs : Dictionary} (hfs : fs.Sublist es) (name : String) (_ : name ∈ reservedNames)
      (h : fs.contains (.str name)) : es.contains (.str name) ∨ op.putsKey name :=
    .inl (Dictionary.contains_of_sublist hfs h)
  cases op with
  | setAttr name v =>
    rw [Op.run, setAttr_ofEntries (by simpa [Op.sparesInsides] using h)] at hrun
    split at hrun
    · cases hrun
    next hfree =>
      cases hrun
      refine ⟨_, rfl, fun other hother hin => (Dictionary.contains_of_insert hin).imp_right ?_⟩
      intro hsame
      cases Value.eq_str_of_same hsame
      exact absurd (List.contains_iff_mem.mpr hother) hfree
  | eraseAttr name =>
    change (if _ then _ else _) = _ at hrun
    split at hrun <;> cases hrun
    exact ⟨_, rfl, hfewer (es.erase_sublist _)⟩
  | set key v =>
    obtain ⟨w, hw, hrun⟩ := except_bind_eq_ok.mp hrun
    obtain ⟨k, hk, hw⟩ := except_bind_eq_ok.mp hw
    cases asKey_eq_ok hk
    cases hw
    cases hrun
    exact ⟨_, rfl, fun _ _ => Dictionary.contains_of_insert⟩
  | erase key =>
    obtain ⟨w, hw, hrun⟩ := except_bind_eq_ok.mp hrun
    obtain ⟨_, -, hw⟩ := except_bind_eq_ok.mp hw
    cases hw
    cases hrun
    exact ⟨_, rfl, hfewer (es.erase_sublist _)⟩
  | update fs =>
    obtain ⟨gs, hgs, hrun⟩ := except_bind_eq_ok.mp hrun
    cases eq_of_keywords hgs
    cases hrun
    exact ⟨_, rfl, fun _ _ => Dictionary.contains_of_insertAll⟩
  | setDefault key default =>
    obtain ⟨p, hp, hrun⟩ := except_bind_eq_ok.mp hrun
    cases hrun
    obtain ⟨fs, hfs, hp⟩ := except_bind_eq_ok.mp hp
    cases hfs
    obtain ⟨k, -, hp⟩ := except_bind_eq_ok.mp hp
    split at hp <;> cases hp
    · exact ⟨_, rfl, hfewer (List.Sublist.refl _)⟩
    · exact ⟨_, rfl, fun _ _ => Dictionary.contains_of_insert⟩
  | pop key default =>
    obtain ⟨p, hp, hrun⟩ := except_bind_eq_ok.mp hrun
    cases hrun
    -- Where there are no entries the key is not looked at, which makes no difference here.
    simp only [Record.pop, ofEntries] at hp
    split at hp <;> obtain ⟨k, -, hp⟩ := except_bind_eq_ok.mp hp <;> split at hp <;> cases hp
    · exact ⟨_, rfl, hfewer (es.erase_sublist _)⟩
    · exact ⟨_, rfl, hfewer (List.Sublist.refl _)⟩
    · exact ⟨_, rfl, hfewer (es.erase_sublist _)⟩
    · exact ⟨_, rfl, hfewer (List.Sublist.refl _)⟩
  | popLast =>
    obtain ⟨p, hp, hrun⟩ := except_bind_eq_ok.mp hrun
    cases hrun
    obtain ⟨fs, hfs, hp⟩ := except_bind_eq_ok.mp hp
    cases hfs
    split at hp <;> cases hp
    exact ⟨_, rfl, hfewer es.dropLast_sublist⟩
  | clear =>
    cases hrun
    exact ⟨[], rfl, hfewer (List.nil_sublist _)⟩
  | copy =>
    obtain ⟨gs, hgs, hrun⟩ := except_bind_eq_ok.mp hrun
    cases hgs
    exact ⟨_, eq_ofEntries_of_make hrun, hfewer (List.Sublist.refl _)⟩

/-- The same after any number of operations. -/
theorem exists_of_foldl {ops : List Op} (h : ∀ op ∈ ops, op.sparesInsides) (es : Dictionary) :
    ∃ fs, ops.foldl Op.after (ofEntries es) = ofEntries fs ∧ ∀ name ∈ reservedNames,
      fs.contains (.str name) → es.contains (.str name) ∨ ∃ op ∈ ops, op.putsKey name := by
  induction ops generalizing es with
  | nil => exact ⟨es, rfl, fun _ _ => .inl⟩
  | cons op ops ih =>
    obtain ⟨gs, hgs, hstep⟩ : ∃ gs, Op.after (ofEntries es) op = ofEntries gs ∧
        ∀ name ∈ reservedNames,
          gs.contains (.str name) → es.contains (.str name) ∨ op.putsKey name := by
      unfold Op.after
      cases hrun : op.run (ofEntries es) with
      | error e => exact ⟨es, rfl, fun _ _ => .inl⟩
      | ok r => exact exists_of_run (h op (by simp)) hrun
    obtain ⟨fs, hfs, hrest⟩ := ih (fun op hop => h op (by simp [hop])) gs
    refine ⟨fs, by rw [List.foldl_cons, hgs, hfs], fun name hname hin => ?_⟩
    rcases hrest name hname hin with hin | ⟨other, hother, hputs⟩
    · exact (hstep name hname hin).imp_right fun hputs => ⟨op, by simp, hputs⟩
    · exact .inr ⟨other, by simp [hother], hputs⟩

/-! ## Both views -/

theorem attr_ofEntries (es : Dictionary) (name : String)
    (h : name ≠ "_data" ∧ name ≠ "_reserved_names") :
    (ofEntries es).attr name =
      if operations.contains name then .ok (.function name)
      else match es.find? (.str name) with
        | some v => .ok v
        | none => .error (.fault (.noKey (Text.quoted name))) := by
  unfold attr
  split
  · exact absurd rfl h.1
  · exact absurd rfl h.2
  · rfl

/-- After any operations that leave its insides alone, a record gives for each name that is not
reserved the same as an attribute and as a key. Where there is none, reading the attribute fails as
looking up the key does. The names of operations always give the operation, and a reserved name is
a key only if it was written as one. -/
theorem views_agree {es : Dictionary} {r : Record} {ops : List Op} (hmake : make es = .ok r)
    (hops : ∀ op ∈ ops, op.sparesInsides = true) (name : String) :
    let r := ops.foldl Op.after r
    ∃ b, r.contains (.str name) = .ok b ∧
      (name ∈ operations → r.attr name = .ok (.function name)) ∧
      if name ∈ reservedNames then
        b = true → es.contains (.str name) = true ∨ ∃ op ∈ ops, op.putsKey name = true
      else if b then ∃ v, r.get (.str name) = .ok v ∧ r.attr name = .ok v
      else ∃ e, r.attr name = .error e ∧ r.get (.str name) = .error e ∧ e.kind = .keyError := by
  cases eq_ofEntries_of_make hmake
  obtain ⟨fs, hfs, hreserved⟩ := exists_of_foldl hops es
  dsimp only
  rw [hfs]
  refine ⟨fs.contains (.str name), rfl, fun hop => ?_, ?_⟩
  · rw [attr_ofEntries fs name (by revert name; decide), if_pos (by simpa using hop)]
  · split
    next hname => exact hreserved name hname
    next hname =>
      have hown : ∀ n ∈ "_data" :: "_reserved_names" :: operations, n ∈ reservedNames := by decide
      have hfree : name ∉ "_data" :: "_reserved_names" :: operations := mt (hown name) hname
      simp only [List.mem_cons, not_or] at hfree
      have hattr := attr_ofEntries fs name ⟨hfree.1, hfree.2.1⟩
      have hget : (ofEntries fs).get (.str name) = match fs.find? (.str name) with
          | some v => .ok v
          | none => .error (.fault (.noKey (Text.quoted name))) := rfl
      rw [if_neg (by simpa using hfree.2.2)] at hattr
      rw [hattr, hget, show fs.contains (.str name) = (fs.find? (.str name)).isSome from rfl]
      cases fs.find? (.str name) with
      | some v => exact ⟨v, rfl, rfl⟩
      | none => exact ⟨_, rfl, rfl, rfl⟩

theorem views_agree_assigned :
    let r := [Op.setAttr "get" (.int 2), .setAttr "a" (.int 3)].foldl Op.after
      (ofEntries [(.str "get", .int 1)])
    make [(.str "get", .int 1)] = .ok (ofEntries [(.str "get", .int 1)]) ∧
      r.contains (.str "a") = .ok true ∧
      ∃ v, r.get (.str "a") = .ok v ∧ r.attr "a" = .ok v := by
  have hmake : make [(.str "get", .int 1)] = .ok (ofEntries [(.str "get", .int 1)]) := rfl
  obtain ⟨b, hb, -, h⟩ := views_agree hmake (show ∀ op ∈
    [Op.setAttr "get" (.int 2), .setAttr "a" (.int 3)], op.sparesInsides = true by decide) "a"
  obtain rfl : b = true := by
    cbv at hb
    cases hb
    rfl
  exact ⟨hmake, hb, h⟩

/-- An attribute that is not there fails with the error for keys, and a reserved name can be a key,
which its attribute does not give. -/
theorem reserved_as_key :
    (match (ofEntries []).attr "x" with
      | .ok _ => none
      | .error e => some e.kind) = some .keyError ∧
    ∃ r, make [(.str "get", .int 1)] = .ok r ∧ r.contains (.str "get") = .ok true ∧
      r.get (.str "get") = .ok (.int 1) ∧ r.attr "get" = .ok (.function "get") :=
  ⟨rfl, _, rfl, by cbv, by cbv, rfl⟩

end Record

end TreeMacros
