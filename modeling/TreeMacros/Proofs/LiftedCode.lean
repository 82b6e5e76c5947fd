import TreeMacros.Proofs.Encodings
import TreeMacros.Proofs.Passing
import TreeMacros.Proofs.Unmarking

/-!
# The code that lifting makes

The code for a value that can be restored is made of a few kinds of nodes, and the only name in it
is that of the library. Nothing in it is marked, visits pass over it, and it can be lowered whatever
labels it has got in the meantime.
-/

namespace TreeMacros

open Value hiding none set
open Attrs (get?)

variable {v code : Value} {as : Attrs} {name : String} {k : Kind}

namespace Act

variable {σ α β : Type}

theorem lift_bind (r : Except Error α) (f : α → Except Error β) :
    (liftM (r >>= f) : Act σ β) = liftM r >>= fun a => liftM (f a) := by
  funext s
  cases r with
  | ok a => exact (bind_ok (lift_run _ s)).symm
  | error e => exact (bind_error (lift_run _ s)).symm

theorem lift_mapM {f : α → Except Error β} {g : α → Act σ β} {xs : List α}
    (h : ∀ x ∈ xs, g x = liftM (f x)) : xs.mapM g = (liftM (xs.mapM f) : Act σ (List β)) := by
  induction xs with
  | nil => rfl
  | cons x xs ih =>
    rw [List.mapM_cons, List.mapM_cons, h x (by simp), ih fun y hy => h y (by simp [hy]),
      lift_bind]
    simp only [lift_bind]
    rfl

end Act

namespace Value

@[simp] theorem isLeaf_unlabelled (v : Value) : v.unlabelled.isLeaf = v.isLeaf := by
  cases v <;> simp [unlabelled, isLeaf]

@[simp] theorem isNodes_unlabelled (v : Value) : v.unlabelled.isNodes = v.isNodes := by
  cases v <;> simp [unlabelled, isNodes, unlabelledItems_eq, List.all_map, Function.comp_def]

theorem unlabelled_of_isLeaf (h : v.isLeaf) : v.unlabelled = v := by
  cases v with
  | node | list => cases h
  | _ => simp [unlabelled]

theorem offenders_of_isRestorable (h : v.isRestorable) : v.offenders = [] := by
  induction v using heldInduction with
  | h v ih =>
    have hitems {xs : List Value} (hheld : ∀ x ∈ xs, x ∈ v.held)
        (hxs : ∀ x ∈ xs, x.isRestorable) : xs.flatMap offenders = [] :=
      List.flatMap_eq_nil_iff.mpr fun x hx => ih x (hheld x hx) (hxs x hx)
    cases v with
    | node k as =>
      obtain ⟨hk, -, -, hfields⟩ := isBuilt_node.mp h
      rw [offenders_node hk]
      refine List.flatMap_eq_nil_iff.mpr fun f hf => ?_
      rcases mem_held_of_mem_fields hf with hheld | hnone
      · exact ih f.2 hheld (hfields f hf)
      · rw [hnone]
        rfl
    | list xs =>
      rw [offenders_list]
      exact hitems (fun _ hx => hx) (isBuilt_list.mp h)
    | tuple xs =>
      rw [offenders_tuple]
      exact hitems (fun _ hx => hx) (isBuilt_tuple.mp h)
    | set xs =>
      rw [offenders_set]
      exact hitems (fun _ hx => hx) (isBuilt_set.mp h).2
    | dict es =>
      obtain ⟨-, hkeys, hvalues⟩ := isBuilt_dict.mp h
      rw [offenders_dict, hitems (fun _ hx => List.mem_append_left _ hx)
        (List.forall_mem_map.mpr hkeys), hitems (fun _ hx => List.mem_append_right _ hx)
        (List.forall_mem_map.mpr hvalues), List.append_nil]
    | none | bool | int | float | str | bytes | frozen => rfl
    | _ => cases h

end Value

/-- The attribute is set to something of which the condition holds. -/
def Attrs.holds (as : Attrs) (name : String) (p : Value → Bool) : Bool := (get? as name).any p

theorem Attrs.exists_of_holds {p : Value → Bool} (h : Attrs.holds as name p) :
    ∃ v, get? as name = some v ∧ p v := by
  rw [Attrs.holds] at h
  cases hget : get? as name with
  | none => simp [hget] at h
  | some v => exact ⟨v, rfl, by simpa [hget] using h⟩

theorem Attrs.holds_mono {p q : Value → Bool} (h : Attrs.holds as name p)
    (hpq : ∀ v, p v → q v) : Attrs.holds as name q := by
  obtain ⟨v, hv, hp⟩ := exists_of_holds h
  rw [holds, hv]
  exact hpq v hp

namespace Quotation

/-! ## What code is made of -/

/-- The local condition on the nodes of code that builds a value. -/
def buildsAt (k : Kind) (as : Attrs) : Bool :=
  match k with
  | .load => true
  | .name => Attrs.holds as "id" isLibraryName
  | .attributeRef => Attrs.holds as "value" (·.isNode) && Attrs.holds as "attr" (·.isLeaf)
  | .constant => Attrs.holds as "value" (·.isLeaf)
  | .keyword => Attrs.holds as "arg" (·.isLeaf) && Attrs.holds as "value" (·.isNode)
  | .list | .tuple | .set => Attrs.holds as "elts" (·.isNodes)
  | .dict => Attrs.holds as "keys" (·.isNodes) && Attrs.holds as "values" (·.isNodes)
  | .call =>
    Attrs.holds as "func" (·.isNode) && Attrs.holds as "args" (·.isNodes) &&
      Attrs.holds as "keywords" (·.isNodes) &&
        Kind.locationNames.all fun n => (get? as n).all (·.isLeaf)
  | _ => false

/-- The tree is code that builds a value. -/
def isCode (v : Value) : Bool := v.isNode && v.throughout (fun _ => true) buildsAt

theorem isCode_node : isCode (.node k as) ↔
    buildsAt k as = true ∧ ∀ u ∈ children k as, isCode u := by
  have hchildren : (∀ u ∈ children k as, isCode u) ↔
      ∀ u ∈ children k as, u.throughout (fun _ => true) buildsAt :=
    forall₂_congr fun u hu => by rw [isCode, isNode_of_mem_children hu, Bool.true_and]
  rw [hchildren, isCode, isNode, Bool.true_and, throughout_node]
  simp only [forall_const]

theorem isNode_of_isCode (h : isCode v) : v.isNode :=
  (Bool.and_eq_true_iff.mp h).1

theorem isHidden_locationNames : ∀ n ∈ Kind.locationNames, Attrs.isHidden n = false := by
  decide +kernel

private theorem holds_unlabelledAttrs {p : Value → Bool} (hp : ∀ v : Value, p v.unlabelled = p v)
    (hname : name ∈ k.fieldNames) (as : Attrs) :
    Attrs.holds (unlabelledAttrs as) name p = Attrs.holds as name p := by
  rw [Attrs.holds, get?_unlabelledAttrs (Kind.isHidden_of_mem hname), Option.any_map]
  simp only [hp, Attrs.holds]

private theorem isLibraryName_unlabelled (v : Value) :
    isLibraryName v.unlabelled = isLibraryName v := by
  cases v <;> simp [unlabelled, isLibraryName]

theorem buildsAt_unlabelledAttrs (k : Kind) (as : Attrs) :
    buildsAt k (unlabelledAttrs as) = buildsAt k as := by
  have hnode {name : String} (hname : name ∈ k.fieldNames) :=
    holds_unlabelledAttrs isNode_unlabelled hname as
  have hnodes {name : String} (hname : name ∈ k.fieldNames) :=
    holds_unlabelledAttrs isNodes_unlabelled hname as
  have hleaf {name : String} (hname : name ∈ k.fieldNames) :=
    holds_unlabelledAttrs isLeaf_unlabelled hname as
  have hlocation : (Kind.locationNames.all fun n =>
      (get? (unlabelledAttrs as) n).all (·.isLeaf)) =
        Kind.locationNames.all fun n => (get? as n).all (·.isLeaf) := by
    rw [Bool.eq_iff_iff, List.all_eq_true, List.all_eq_true]
    refine forall₂_congr fun n hn => ?_
    rw [get?_unlabelledAttrs (isHidden_locationNames n hn)]
    cases get? as n <;> simp
  unfold buildsAt
  split
  · rfl
  · exact holds_unlabelledAttrs isLibraryName_unlabelled (k := .name) (by decide) as
  · rw [hnode (by decide), hleaf (by decide)]
  · rw [hleaf (by decide)]
  · rw [hnode (by decide), hleaf (by decide)]
  · rw [hnodes (by decide)]
  · rw [hnodes (by decide)]
  · rw [hnodes (by decide)]
  · rw [hnodes (by decide), hnodes (by decide)]
  · rw [hnode (by decide), hnodes (by decide), hnodes (by decide), hlocation]
  · rfl

theorem isCode_labelled (v : Value) (n : Nat) : isCode (v.labelled n).1 = isCode v := by
  rw [isCode, isCode, throughout_labelled buildsAt_unlabelledAttrs,
    ← isNode_unlabelled, unlabelled_labelled, isNode_unlabelled]

/-! ## Lifting makes code -/

private theorem isLeaf_of_hasCopiedLocation (h : hasCopiedLocation as) :
    (Kind.locationNames.all fun n => (get? as n).all (·.isLeaf)) := by
  refine List.all_eq_true.mpr fun n hn => ?_
  have hcopied := List.all_eq_true.mp h n hn
  rw [Option.all_eq_true]
  intro v hv
  rw [hv] at hcopied
  cases v with
  | int | none => rfl
  | _ => cases hcopied

private theorem isLeaf_of_isText (h : v.isText) : v.isLeaf := by
  obtain ⟨s, rfl⟩ := exists_of_isText h
  rfl

private theorem buildsAt_of_encodesAt (h : encodesAt k as) (hl : keepsLocation k as) :
    buildsAt k as := by
  obtain ⟨layout, hlayout, hfields⟩ := encodesAt_iff.mp h
  have hpart (name : String) {p : Slot} (hname : name ∈ k.fieldNames)
      (hp : layout.lookup name = some p) : Attrs.holds as name p.admits := by
    have hat := hfields name hname
    rwa [fillsSlot, hp] at hat
  unfold layout? at hlayout
  split at hlayout
  case h_11 => cases hlayout
  all_goals cases hlayout
  · rfl
  · exact hpart "id" (by decide) rfl
  · exact Bool.and_eq_true_iff.mpr ⟨hpart "value" (by decide) rfl,
      Attrs.holds_mono (hpart "attr" (by decide) rfl) fun _ => isLeaf_of_isText⟩
  · exact Attrs.holds_mono (hpart "value" (by decide) rfl) fun _ => isLeaf_of_isAtom
  · exact Bool.and_eq_true_iff.mpr
      ⟨Attrs.holds_mono (hpart "arg" (by decide) rfl) fun _ => isLeaf_of_isText,
        hpart "value" (by decide) rfl⟩
  · exact hpart "elts" (by decide) rfl
  · exact hpart "elts" (by decide) rfl
  · exact hpart "elts" (by decide) rfl
  · exact Bool.and_eq_true_iff.mpr ⟨hpart "keys" (by decide) rfl, hpart "values" (by decide) rfl⟩
  · simp only [buildsAt, Bool.and_eq_true]
    exact ⟨⟨⟨hpart "func" (by decide) rfl, hpart "args" (by decide) rfl⟩,
      hpart "keywords" (by decide) rfl⟩, isLeaf_of_hasCopiedLocation hl⟩

theorem isCode_of_isEncoding (h : isEncoding v) : isCode v := by
  induction v using walkInduction with
  | rest v hn =>
    rw [isNode_of_isEncoding h] at hn
    cases hn
  | node k as ih =>
    obtain ⟨⟨hat, hl⟩, hchildren⟩ := isEncoding_node.mp h
    exact isCode_node.mpr ⟨buildsAt_of_encodesAt hat hl, fun u hu => ih u hu (hchildren u hu)⟩

theorem isCode_of_liftPlain (hv : v.isRestorable) (h : liftPlain v = .ok code) :
    isCode code :=
  isCode_of_isEncoding (isEncoding_of_liftPlain hv h)

/-- Code in which no quotation operator has been left. -/
def IsFinished (code : Value) : Prop :=
  code.isNode = true ∧ code.isUnmarked .quoteMarker = true

theorem isFinished_of_isCode (h : isCode code) : IsFinished code := by
  obtain ⟨hn, hcode⟩ := Bool.and_eq_true_iff.mp h
  refine ⟨hn, throughout_mono (fun k as hat => ?_) hcode⟩
  unfold buildsAt at hat
  split at hat
  all_goals first | (cases hat; done) | rfl

theorem lift_eq_liftM {σ : Type} (captured : Value → Act σ (Option String))
    (h : ∀ u ∈ v.offenders, u.isKind .captureLater = false) :
    lift captured v = liftM (liftPlain v) := by
  induction v using heldInduction with
  | h v ih =>
    have hitems (xs : List Value) (hheld : ∀ x ∈ xs, x ∈ v.held)
        (hxs : ∀ u ∈ xs.flatMap offenders, u ∈ v.offenders) :
        xs.mapM (lift captured) = liftM (xs.mapM liftPlain) :=
      Act.lift_mapM fun x hx => ih x (hheld x hx) fun u hu =>
        h u (hxs u (List.mem_flatMap.mpr ⟨x, hx, hu⟩))
    cases v with
    | node k as =>
      cases hk : k.isMarker with
      | true =>
        rw [offenders_marker hk] at h
        have hcapture : k ≠ .captureLater := by
          rintro rfl
          cases h _ (List.mem_singleton_self _)
        by_cases hliteral : k = .literal
        · subst hliteral
          rw [liftPlain, lift, lift, fold_node, fold_node]
          change liftExcept ((node .literal as).attr "body") =
            liftM (liftExcept ((node .literal as).attr "body") : Except Error Value)
          cases (node .literal as).attr "body" <;> rfl
        · rw [liftPlain, lift_marker _ hk hliteral hcapture, lift_marker _ hk hliteral hcapture]
          cases (node k as).source false <;> rfl
      | false =>
        rw [offenders_node hk] at h
        rw [liftPlain, lift_node _ hk, lift_node _ hk, Act.lift_bind, Act.lift_mapM]
        · rfl
        · intro f hf
          rw [Act.lift_bind]
          congr 1
          rcases mem_held_of_mem_fields hf with hheld | hnone
          · exact ih f.2 hheld fun u hu => h u (List.mem_flatMap.mpr ⟨f, hf, hu⟩)
          · rw [hnone]
            rfl
    | list xs | tuple xs | set xs =>
      have hsame := hitems xs (fun _ hx => hx) fun u hu => by
        simpa only [offenders_list, offenders_tuple, offenders_set] using hu
      simp only [liftPlain, lift_list, lift_tuple, lift_set, Act.lift_bind] at hsame ⊢
      rw [hsame]
      rfl
    | dict es =>
      rw [liftPlain, lift_dict, lift_dict, Act.lift_bind,
        hitems (es.map (·.1)) (fun _ hx => List.mem_append_left _ hx)
          (offenders_dict es ▸ fun _ hu => List.mem_append_left _ hu),
        hitems (es.map (·.2)) (fun _ hx => List.mem_append_right _ hx)
          (offenders_dict es ▸ fun _ hu => List.mem_append_right _ hu)]
      simp only [Act.lift_bind]
      rfl
    | none | bool | int | float | str | bytes | frozen => rfl
    | _ => rfl

theorem lift_of_isRestorable {σ : Type} (captured : Value → Act σ (Option String))
    (hv : v.isRestorable) (h : liftPlain v = .ok code) (s : σ) :
    lift captured v s = (.ok code, s) := by
  rw [lift_eq_liftM captured (by simp [offenders_of_isRestorable hv]), h]
  rfl

theorem lower_of_liftPlain (hv : v.isRestorable) (h : liftPlain v = .ok code) :
    lower code = .ok v.completed := by
  obtain ⟨code', hlift, hlower⟩ := returns_of_isRestorable (lowerAt 999) hv
  rw [h] at hlift
  cases hlift
  exact hlower

/-! ## Lowering labelled code -/

section

variable {α β : Type} {r r' : Except Error α}

/-- The results are the same value, or both are errors. -/
def GivesSame (r r' : Except Error α) : Prop := ∀ a, r = .ok a ↔ r' = .ok a

theorem givesSame_of_eq (h : r = r') : GivesSame r r' := fun _ => by rw [h]

theorem GivesSame.bind {f g : α → Except Error β} (h : GivesSame r r')
    (hf : ∀ a, GivesSame (f a) (g a)) : GivesSame (r >>= f) (r' >>= g) := by
  intro b
  rw [except_bind_eq_ok, except_bind_eq_ok]
  exact exists_congr fun a => and_congr (h a) (hf a b)

theorem GivesSame.before (h : GivesSame r r') (f : α → Except Error β) :
    GivesSame (r >>= f) (r' >>= f) :=
  h.bind fun _ => givesSame_of_eq rfl

theorem GivesSame.mapM {f g : α → Except Error β} {xs : List α}
    (h : ∀ x ∈ xs, GivesSame (f x) (g x)) : GivesSame (xs.mapM f) (xs.mapM g) := by
  induction xs with
  | nil => exact givesSame_of_eq rfl
  | cons x xs ih =>
    rw [List.mapM_cons, List.mapM_cons]
    exact (h x (by simp)).bind fun y => (ih fun z hz => h z (by simp [hz])).before _

end

section

variable {again : Value → Except Error Value} {as : Attrs} {name : String} {v : Value}

private theorem get?_unlabelled_of_isLeaf (hname : name ∈ k.fieldNames) (h : get? as name = some v)
    (hv : v.isLeaf) : get? (unlabelledAttrs as) name = some v := by
  rw [get?_unlabelledAttrs (Kind.isHidden_of_mem hname), h, Option.map_some,
    unlabelled_of_isLeaf hv]

private theorem get?_unlabelled_of_get? (hname : name ∈ k.fieldNames) (h : get? as name = some v) :
    get? (unlabelledAttrs as) name = some v.unlabelled := by
  rw [get?_unlabelledAttrs (Kind.isHidden_of_mem hname), h, Option.map_some]

private theorem dottedParts_other (hname : k ≠ .name) (hattribute : k ≠ .attributeRef)
    (as : Attrs) : dottedParts (.node k as) = .error (.report .notOurs none) := by
  rw [dottedParts, fold_node]
  cases k <;> first | rfl | exact absurd rfl hname | exact absurd rfl hattribute

private theorem dottedParts_unlabelled (h : isCode v) :
    dottedParts v.unlabelled = dottedParts v := by
  induction v using walkInduction with
  | rest v hn =>
    rw [isNode_of_isCode h] at hn
    cases hn
  | node k as ih =>
    obtain ⟨hat, hbelow⟩ := isCode_node.mp h
    rw [unlabelled]
    by_cases hname : k = .name
    · subst hname
      obtain ⟨id, hid, hlibrary⟩ := Attrs.exists_of_holds hat
      have hleaf : id.isLeaf := by
        cases id with
        | str => rfl
        | _ => cases hlibrary
      rw [dottedParts_name hid,
        dottedParts_name (get?_unlabelled_of_isLeaf (k := .name) (by decide) hid hleaf)]
    by_cases hattribute : k = .attributeRef
    · subst hattribute
      obtain ⟨hvalue, hattr⟩ := Bool.and_eq_true_iff.mp hat
      obtain ⟨u, hu, hn⟩ := Attrs.exists_of_holds hvalue
      obtain ⟨attr, hattr, hleaf⟩ := Attrs.exists_of_holds hattr
      have hchild := mem_children_of_get? (k := .attributeRef) (by decide) hu hn
      rw [dottedParts_attributeRef hu hn hattr, dottedParts_attributeRef
        (get?_unlabelled_of_get? (k := .attributeRef) (by decide) hu)
        ((isNode_unlabelled u).trans hn)
        (get?_unlabelled_of_isLeaf (k := .attributeRef) (by decide) hattr hleaf),
        ih u hchild (hbelow u hchild), isKind_unlabelled, isKind_unlabelled]
    · rw [dottedParts_other hname hattribute, dottedParts_other hname hattribute]

private theorem dottedName_unlabelled (h : isCode v) :
    dottedName v.unlabelled = dottedName v := by
  rw [dottedName, dottedName, dottedParts_unlabelled h, isKind_unlabelled]

private theorem placeResult_unlabelled (hat : buildsAt .call as) (v : Value) :
    placeResult v (.node .call (unlabelledAttrs as)) = placeResult v (.node .call as) := by
  have hcopied : ∀ n ∈ Kind.locationNames, (node .call (unlabelledAttrs as)).copiedAttr?
      n = (node .call as).copiedAttr? n := by
    intro n hn
    have hleaf := List.all_eq_true.mp (Bool.and_eq_true_iff.mp hat).2 n hn
    have hget : get? (unlabelledAttrs as) n = get? as n := by
      rw [get?_unlabelledAttrs (isHidden_locationNames n hn)]
      cases hget : get? as n with
      | none => rfl
      | some u =>
        rw [hget] at hleaf
        rw [Option.map_some, unlabelled_of_isLeaf hleaf]
    simp only [copiedAttr?, attr?, hget]
  have hcopy : v.copyLocation (.node .call (unlabelledAttrs as)) =
      v.copyLocation (.node .call as) := by
    simp only [copyLocation, Kind.locationNames, List.foldl_cons, List.foldl_nil,
      hcopied "lineno" (by decide), hcopied "col_offset" (by decide),
      hcopied "end_lineno" (by decide), hcopied "end_col_offset" (by decide)]
    rfl
  rw [placeResult, placeResult, hcopy]
  rfl

private theorem givesSame_lowerWith_list {codes : List Value}
    (h : ∀ code ∈ codes, GivesSame (lowerWith again code.unlabelled) (lowerWith again code)) :
    GivesSame (lowerWith again (.list (codes.map unlabelled)))
      (lowerWith again (.list codes)) := by
  rw [lowerWith_list, lowerWith_list, List.mapM_map]
  exact (GivesSame.mapM h).before _

theorem givesSame_lowerWith (h : isCode v) :
    GivesSame (lowerWith again v.unlabelled) (lowerWith again v) := by
  induction v using walkInduction with
  | rest v hn =>
    rw [isNode_of_isCode h] at hn
    cases hn
  | node k as ih =>
    obtain ⟨hat, hbelow⟩ := isCode_node.mp h
    rw [unlabelled]
    have hchild {name : String} {u : Value} (hname : name ∈ k.fieldNames)
        (hu : get? as name = some u) (hn : u.isNode) : isCode u ∧
        GivesSame (lowerWith again u.unlabelled) (lowerWith again u) :=
      have hmem := mem_children_of_get? hname hu hn
      ⟨hbelow u hmem, ih u hmem (hbelow u hmem)⟩
    have hchildren {name : String} (hname : name ∈ k.fieldNames)
        (hnodes : Attrs.holds as name (·.isNodes)) : ∃ codes,
        get? as name = some (.list codes) ∧
        get? (unlabelledAttrs as) name = some (.list (codes.map unlabelled)) ∧
        ∀ code ∈ codes, GivesSame (lowerWith again code.unlabelled) (lowerWith again code) := by
      obtain ⟨u, hu, hnodes⟩ := Attrs.exists_of_holds hnodes
      obtain ⟨codes, rfl, hcodes⟩ := exists_of_isNodes hnodes
      refine ⟨codes, hu, ?_, fun code hcode => ?_⟩
      · rw [get?_unlabelled_of_get? hname hu, unlabelled, unlabelledItems_eq]
      · have hmem := mem_children_of_mem hname hu hcode (hcodes code hcode)
        exact ih code hmem (hbelow code hmem)
    have hnever (hk : k ∉ runnable) : GivesSame (lowerWith again (.node k (unlabelledAttrs as)))
        (lowerWith again (.node k as)) := by
      obtain ⟨e, he⟩ := lowerWith_of_notMem again hk (unlabelledAttrs as)
      obtain ⟨e', he'⟩ := lowerWith_of_notMem again hk as
      rw [he, he']
      exact fun r => ⟨fun hr => (by cases hr), fun hr => (by cases hr)⟩
    have hcall := hat
    unfold buildsAt at hat
    split at hat
    case h_1 | h_2 | h_3 => exact hnever (by decide)
    case h_4 =>
      obtain ⟨u, hu, hleaf⟩ := Attrs.exists_of_holds hat
      rw [lowerWith_constant again hu, lowerWith_constant again
        (get?_unlabelled_of_isLeaf (k := .constant) (by decide) hu hleaf)]
      exact givesSame_of_eq rfl
    case h_5 =>
      obtain ⟨harg, hvalue⟩ := Bool.and_eq_true_iff.mp hat
      obtain ⟨arg, harg, hleaf⟩ := Attrs.exists_of_holds harg
      obtain ⟨u, hu, hn⟩ := Attrs.exists_of_holds hvalue
      rw [lowerWith_keyword again harg hu, lowerWith_keyword again
        (get?_unlabelled_of_isLeaf (k := .keyword) (by decide) harg hleaf)
        (get?_unlabelled_of_get? (k := .keyword) (by decide) hu)]
      exact (hchild (by decide) hu hn).2.before _
    case h_6 =>
      obtain ⟨codes, hcodes, hcodes', hsame⟩ := hchildren (by decide) hat
      rw [lowerWith_listDisplay again hcodes, lowerWith_listDisplay again hcodes', List.mapM_map]
      exact (GivesSame.mapM hsame).before _
    case h_7 =>
      obtain ⟨codes, hcodes, hcodes', hsame⟩ := hchildren (by decide) hat
      rw [lowerWith_tupleDisplay again hcodes, lowerWith_tupleDisplay again hcodes', List.mapM_map]
      exact (GivesSame.mapM hsame).before _
    case h_8 =>
      obtain ⟨codes, hcodes, hcodes', hsame⟩ := hchildren (by decide) hat
      rw [lowerWith_setDisplay again hcodes, lowerWith_setDisplay again hcodes', List.mapM_map]
      exact (GivesSame.mapM fun code hcode => (hsame code hcode).before _).before _
    case h_9 =>
      obtain ⟨hkeys, hvalues⟩ := Bool.and_eq_true_iff.mp hat
      obtain ⟨keys, hkeys, hkeys', hks⟩ := hchildren (by decide) hkeys
      obtain ⟨values, hvalues, hvalues', hvs⟩ := hchildren (by decide) hvalues
      rw [lowerWith_dictDisplay again hkeys hvalues, lowerWith_dictDisplay again hkeys' hvalues',
        List.zip_map, List.mapM_map]
      refine (GivesSame.mapM fun e he => ?_).before _
      obtain ⟨hkey, hvalue⟩ := List.of_mem_zip he
      exact (hks e.1 hkey).bind fun key => (hvs e.2 hvalue).before _
    case h_10 =>
      simp only [Bool.and_eq_true] at hat
      obtain ⟨func, hfunc, hn⟩ := Attrs.exists_of_holds hat.1.1.1
      obtain ⟨args, hargs, hargs', hsame⟩ := hchildren (by decide) hat.1.1.2
      obtain ⟨keywords, hkeywords, hkeywords', hsame'⟩ := hchildren (by decide) hat.1.2
      rw [lowerWith_call again hfunc hargs hkeywords, lowerWith_call again
        (get?_unlabelled_of_get? (k := .call) (by decide) hfunc) hargs' hkeywords',
        dottedName_unlabelled (hchild (by decide) hfunc hn).1]
      simp only [placeResult_unlabelled hcall]
      refine (givesSame_of_eq rfl).bind fun name => (givesSame_of_eq rfl).bind fun callee => ?_
      refine (givesSame_lowerWith_list hsame).bind fun given => ?_
      exact (givesSame_lowerWith_list hsame').before _
    case h_11 => cases hat

theorem lowerWith_labelled (h : isCode v) {r : Value} (hr : lowerWith again v = .ok r)
    (n : Nat) : lowerWith again (v.labelled n).1 = .ok r := by
  have hlabelled : isCode (v.labelled n).1 := (isCode_labelled v n).trans h
  rw [← givesSame_lowerWith hlabelled r, unlabelled_labelled, givesSame_lowerWith h r, hr]

end

end Quotation

namespace Expander

/-! ## Visits to code -/

open Quotation (isCode isCode_node buildsAt)

variable {x : Expander} {w : World} {v : Value}

theorem passesOver_of_isCode (hlibrary : ∀ b, x.known? w "mcpyrate" = some b → b.isName = false)
    (h : isCode v) : x.passesOver w v := by
  induction v using walkInduction with
  | rest v hn =>
    rw [Quotation.isNode_of_isCode h] at hn
    cases hn
  | node k as ih =>
    obtain ⟨hat, hbelow⟩ := isCode_node.mp h
    by_cases hname : k = .name
    · subst hname
      obtain ⟨id, hid, hlibraryName⟩ := Attrs.exists_of_holds hat
      cases id with
      | str s =>
        obtain rfl : s = "mcpyrate" := by simpa [Quotation.isLibraryName] using hlibraryName
        exact passesOver_of_bare hid hlibrary
      | _ => cases hlibraryName
    have hitems : itemsField? k = none ∧ k ≠ .subscript ∧ k ≠ .done := by
      unfold buildsAt at hat
      split at hat
      all_goals first | (cases hat; done) | decide
    refine passesOver_node.mpr ⟨passesAt_iff.mpr ⟨hitems.1, ?_, ?_⟩, fun _ _ u hu =>
      ih u hu (hbelow u hu)⟩
    · rw [invokes_other x hitems.1 hitems.2.1 hname]
      rfl
    · rintro rfl
      obtain ⟨u, hu, -⟩ := Attrs.exists_of_holds hat
      exact ⟨u, attr_of_get? hu⟩

end Expander

end TreeMacros
