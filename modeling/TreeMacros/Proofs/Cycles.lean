import TreeMacros.Proofs.Freshness

/-!
# Files without a time

Where the imports of all files can be found, asking for the time of a file finds one just if the files
that can be reached are source files and none of them depends on itself. Otherwise the search goes too
deep, or comes to a file that is no source file and fails there.
-/

namespace TreeMacros.Freshness

variable {p : Project} {seen : List (Path × Int)} {name : String} {e : Entry}

theorem Complete.of_imported (hpy : name.endsWith ".py") (he : p.entry name = .ok e)
    (h : ∀ path ∈ e.imported, Complete p path.text) : Complete p name := by
  have hdeps : ∀ other, DependsOn p name other → Complete p other := by
    rintro other ⟨e', he', path, hpath, rfl⟩
    rw [he] at he'
    cases he'
    exact h path hpath
  constructor
  · intro file hfile
    rcases hfile.cases_head with rfl | ⟨other, hdep, hrest⟩
    · exact ⟨hpy, e, he⟩
    · exact (hdeps other hdep).readable file hrest
  · intro file hfile hcycle
    rcases hfile.cases_head with rfl | ⟨other, hdep, hrest⟩
    · -- a cycle through the file can be reached from one of its imports
      obtain ⟨other, hdep, hrest⟩ := Relation.TransGen.head'_iff.mp hcycle
      exact (hdeps other hdep).acyclic name hrest hcycle
    · exact (hdeps other hdep).acyclic file hrest hcycle

/-- The source files that can be reached can be read, and all that they import from is found. -/
def Resolves (p : Project) (name : String) : Prop :=
  ∀ file, Reaches p name file → file.endsWith ".py" = true → ∃ e, p.entry file = .ok e

/-- The ways in which a file turns out to have no time. -/
def failures : List Error :=
  [.fault .tooDeep,
    .fault (.wrongCall "path_stats() missing 1 required positional argument: 'path'")]

/-- Times are remembered of complete files only. -/
def KnownComplete (p : Project) (known : List (String × Int)) : Prop :=
  ∀ name time, known.lookup name = some time → Complete p name

/-- An action keeps what is kept and remembered sound, and if it gives something, `P` holds. -/
def Tries {α : Type} (seen : List (Path × Int)) (p : Project) (act : M α) (P : Prop) : Prop :=
  ∀ kept known, KeptSound seen p kept → KnownComplete p known →
    ∃ r kept' known', act (p.caching kept known) = (r, p.caching kept' known') ∧
      KeptSound seen p kept' ∧ KnownComplete p known' ∧
      match r with
      | .ok _ => P
      | .error err => err ∈ failures

section

variable {α β : Type} {act : M α} {P Q : Prop}

theorem Tries.bind {f : α → M β} (h : Tries seen p act P) (hf : P → ∀ a, Tries seen p (f a) Q) :
    Tries seen p (act >>= f) Q := by
  intro kept known hkept hknown
  obtain ⟨r, kept₁, known₁, hrun, hkept₁, hknown₁, hr⟩ := h kept known hkept hknown
  cases r with
  | error err => exact ⟨.error err, kept₁, known₁, Act.bind_error hrun, hkept₁, hknown₁, hr⟩
  | ok a =>
    rw [Act.bind_ok hrun]
    exact hf hr a kept₁ known₁ hkept₁ hknown₁

theorem tries_pure (a : α) (h : P) : Tries seen p (pure a) P :=
  fun kept known hkept hknown => ⟨.ok a, kept, known, rfl, hkept, hknown, h⟩

theorem tries_throw {err : Error} (h : err ∈ failures) : Tries seen p (throw err : M α) P :=
  fun kept known hkept hknown => ⟨.error err, kept, known, rfl, hkept, hknown, h⟩

end

private theorem tries_imported {depth : Nat} {package : Option String} {statements : List Value}
    {imported : List Path} (himported : statements.mapM (p.target name package) = .ok imported)
    (h : ∀ path ∈ imported, Tries seen p (newest depth path.text) (Complete p path.text)) :
    Tries seen p (statements.mapM fun s => do newest depth (← dependency name package s).text)
      (∀ path ∈ imported, Complete p path.text) := by
  induction statements generalizing imported with
  | nil =>
    cases himported
    exact tries_pure [] (by simp)
  | cons statement statements ih =>
    obtain ⟨path, rest, hpath, hrest, rfl⟩ := exists_of_mapM_cons himported
    have hfirst : Tries seen p (do newest depth (← dependency name package statement).text)
        (Complete p path.text) := by
      intro kept known hkept hknown
      rw [Act.bind_ok (dependency_run hpath kept known)]
      exact h path (by simp) kept known hkept hknown
    rw [List.mapM_cons]
    refine hfirst.bind fun hcomplete _ => ?_
    refine (ih hrest fun other hother => h other (by simp [hother])).bind fun hall _ => ?_
    exact tries_pure _ (List.forall_mem_cons.mpr ⟨hcomplete, hall⟩)

private theorem tries_record (time : Int) (times : List Int) (h : Complete p name) :
    Tries seen p (record name time times) (Complete p name) := by
  intro kept known hkept hknown
  refine ⟨.ok (newestOf times time), kept, _, rfl, hkept, fun other t hlookup => ?_, h⟩
  rw [lookup_replace] at hlookup
  split at hlookup
  next heq => exact heq ▸ h
  next => exact hknown other t hlookup

theorem tries_newest (hseen : FilesSeen seen p) (depth : Nat) (h : Resolves p name) :
    Tries seen p (newest depth name) (Complete p name) := by
  induction depth generalizing name with
  | zero => exact tries_throw (by simp [failures])
  | succ depth ih =>
    intro kept known hkept hknown
    cases hpy : name.endsWith ".py" with
    | false =>
      refine ⟨.error failures[1], kept, known, ?_, hkept, hknown, List.getElem_mem _⟩
      rw [newest, hpy]
      rfl
    | true =>
      cases hlookup : known.lookup name with
      | some time =>
        exact ⟨_, kept, known, newest_of_known hpy hlookup, hkept, hknown, hknown name time hlookup⟩
      | none =>
        obtain ⟨e, he⟩ := h name .refl hpy
        obtain ⟨package, statements, kept', himported, hkept', hrun⟩ :=
          newest_of_unknown hpy hkept hseen he hlookup
        have htimes := tries_imported himported fun path hpath =>
          ih fun file hfile => h file (hfile.head ⟨e, he, path, hpath, rfl⟩)
        rw [hrun]
        refine (htimes.bind fun hall times => ?_) kept' known hkept' hknown
        exact tries_record e.time times (.of_imported hpy he hall)

/-- Where the imports of all files can be found, a file has a time just if the files that can be
reached are source files and none of them depends on itself. There are two ways to fail otherwise. -/
theorem freshness_ok_iff (h : Consistent seen true p) (hknown : KnownComplete p p.known)
    (hresolves : Resolves p name) :
    ((∃ time, ((freshness name).runOn p).1 = .ok time) ↔
      ∀ file, Reaches p name file →
        file.endsWith ".py" = true ∧ ¬ Relation.TransGen (DependsOn p) file file) ∧
    ∀ err, ((freshness name).runOn p).1 = .error err → err ∈ failures := by
  obtain ⟨r, kept, known, hrun, -, -, hr⟩ :=
    tries_newest h.files (p.files.length + 2) hresolves p.kept p.known h.kept hknown
  have hfreshness : (freshness name).runOn p = (r, p.caching kept known) := hrun
  rw [hfreshness]
  refine ⟨⟨?_, fun hgraph => ?_⟩, ?_⟩
  · rintro ⟨time, rfl⟩ file hfile
    exact ⟨(hr.readable file hfile).1, hr.acyclic file hfile⟩
  · have hcomplete : Complete p name :=
      ⟨fun file hfile => ⟨(hgraph file hfile).1, hresolves file hfile (hgraph file hfile).1⟩,
        fun file hfile => (hgraph file hfile).2⟩
    obtain ⟨time, kept', known', hok, -⟩ := freshness_of_consistent h hcomplete
    exact ⟨time, congrArg Prod.fst (hfreshness.symm.trans hok)⟩
  · rintro err rfl
    exact hr

private theorem resolves_of_closed (files : List String) (hname : name ∈ files)
    (h : ∀ file ∈ files, ∃ e, p.entry file = .ok e ∧ ∀ path ∈ e.imported, path.text ∈ files) :
    Resolves p name := by
  have hmem : ∀ file, Reaches p name file → file ∈ files := by
    intro file hfile
    induction hfile with
    | refl => exact hname
    | tail _ hdep ih =>
      obtain ⟨e, he, path, hpath, rfl⟩ := hdep
      obtain ⟨e', he', himported⟩ := h _ ih
      rw [he] at he'
      cases he'
      exact himported path hpath
  intro file hfile _
  obtain ⟨e, he, -⟩ := h file (hmem file hfile)
  exact ⟨e, he⟩

/-- A file that imports from another has a time, since it imports from nothing else. -/
theorem freshness_ok_of_twoFiles : ∃ time, ((freshness "/a.py").runOn (twoFiles 2)).1 = .ok time := by
  have hcomplete := complete_of_entries (entry_importing 2) (entry_imported 2)
  refine (freshness_ok_iff (.start rfl rfl) (by simp [KnownComplete, twoFiles]) ?_).1.mpr ?_
  · exact fun file hfile _ => (hcomplete.readable file hfile).2
  · exact fun file hfile => ⟨(hcomplete.readable file hfile).1, hcomplete.acyclic file hfile⟩

/-- A file that imports from a module, beside a compiled file. -/
private def importing (module : String) : Project :=
  { twoFiles 1 with
    files := [(⟨["b.pyc"]⟩, ⟨[], 1⟩), (⟨["a.py"]⟩, ⟨[98], 1⟩)]
    parse := fun text =>
      some (.node .module [("body", .list (if text = "b" then [importMacros module] else []))]) }

/-- A file that imports from itself has no time, and neither has one that imports from a compiled file. -/
theorem freshness_of_importing :
    Resolves (importing "a") "/a.py" ∧ Resolves (importing "b") "/a.py" ∧
      (["a", "b"].map fun module => ((freshness "/a.py").runOn (importing module)).1) =
        failures.map .error := by
  refine ⟨resolves_of_closed ["/a.py"] (by simp) ?_,
    resolves_of_closed ["/a.py", "/b.pyc"] (by simp) ?_, by cbv⟩
  · exact List.forall_mem_singleton.mpr ⟨⟨1, [⟨["a.py"]⟩]⟩, by cbv, by decide⟩
  · refine List.forall_mem_cons.mpr ⟨⟨⟨1, [⟨["b.pyc"]⟩]⟩, by cbv, by decide⟩,
      List.forall_mem_singleton.mpr ⟨⟨1, []⟩, by cbv, by decide⟩⟩

end TreeMacros.Freshness
