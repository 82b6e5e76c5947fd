import Mathlib
import TreeMacros.Import.Freshness
import TreeMacros.Proofs.Passes

/-!
# Times of dependencies

What a file imports macros or dialects from is said by the files alone. A file is as new as the newest
file that can be reached from it this way. The times that are remembered, and the imports that are
kept beside the files, are sound if they agree with the files. Asking for a time finds it, whatever
sound things are remembered or kept, and leaves sound ones. A change of a file leaves what is kept
sound if the file gets a time that it never had before; what is remembered has to be invalidated.
-/

namespace TreeMacros.Freshness

variable {statement : Value} {name : String} {time : Int} {statements : List Value}

/-! ## The graph of dependencies -/

/-- What a file says: when it was changed, and which files it imports macros or dialects from. -/
structure Entry where
  time : Int
  imported : List Path

def Project.target (p : Project) (name : String) (package : Option String) (statement : Value) :
    Except Error Path := do
  let module ← Import.moduleName statement name package
  locate p module p.root (module.splitOn ".")

/-- The package of a file, if that matters to its imports. -/
def Project.package (p : Project) (name : String) (found : Imports) : Except Error (Option String) :=
  if found.hasRelative then (Import.packageOf p.places name).map some else .ok none

def Project.entry (p : Project) (name : String) : Except Error Entry := do
  let path ← p.places.resolve name
  match p.file? path with
  | none => .error (.fault (.missingFile name))
  | some source =>
    let found ← importsOf p source
    let package ← p.package name found
    return ⟨source.time, ← found.statements.mapM (p.target name package)⟩

def DependsOn (p : Project) (name other : String) : Prop :=
  ∃ e, p.entry name = .ok e ∧ ∃ path ∈ e.imported, path.text = other

def Reaches (p : Project) : String → String → Prop := Relation.ReflTransGen (DependsOn p)

/-- All files that can be reached can be read, their imports refer to source files, and no file depends
on itself. -/
structure Complete (p : Project) (name : String) : Prop where
  readable : ∀ file, Reaches p name file → file.endsWith ".py" = true ∧ ∃ e, p.entry file = .ok e
  acyclic : ∀ file, Reaches p name file → ¬ Relation.TransGen (DependsOn p) file file

/-- The time of the newest file that can be reached. -/
def IsNewest (p : Project) (name : String) (time : Int) : Prop :=
  IsGreatest {t | ∃ file e, Reaches p name file ∧ p.entry file = .ok e ∧ e.time = t} time

section

variable {p : Project} {name other : String} {e : Entry} {times : List Int} {time : Int}

theorem Complete.of_dependsOn (h : Complete p name) (hdep : DependsOn p name other) :
    Complete p other where
  readable := fun file hfile => h.readable file (hfile.head hdep)
  acyclic := fun file hfile => h.acyclic file (hfile.head hdep)

theorem le_newestOf (times : List Int) (time : Int) :
    time ≤ newestOf times time ∧ ∀ t ∈ times, t ≤ newestOf times time := by
  induction times generalizing time with
  | nil => simp [newestOf]
  | cons u times ih =>
    have hle := ih (max time u)
    have hstep : newestOf (u :: times) time = newestOf times (max time u) := rfl
    rw [hstep]
    refine ⟨(le_max_left _ _).trans hle.1, fun t ht => ?_⟩
    rcases List.mem_cons.mp ht with rfl | ht
    · exact (le_max_right _ _).trans hle.1
    · exact hle.2 t ht

theorem newestOf_mem (times : List Int) (time : Int) :
    newestOf times time = time ∨ newestOf times time ∈ times := by
  induction times generalizing time with
  | nil => exact .inl rfl
  | cons u times ih =>
    have hstep : newestOf (u :: times) time = newestOf times (max time u) := rfl
    rw [hstep]
    rcases ih (max time u) with h | h
    · rw [h]
      cases le_total u time with
      | inl hle => exact .inl (max_eq_left hle)
      | inr hle => exact .inr (by simp [max_eq_right hle])
    · exact .inr (List.mem_cons_of_mem _ h)

theorem isNewest_newestOf (he : p.entry name = .ok e)
    (hall : ∀ path ∈ e.imported, ∃ t ∈ times, IsNewest p path.text t)
    (honly : ∀ t ∈ times, ∃ path ∈ e.imported, IsNewest p path.text t) :
    IsNewest p name (newestOf times e.time) := by
  have hle := le_newestOf times e.time
  constructor
  · rcases newestOf_mem times e.time with h | h
    · rw [h]
      exact ⟨name, e, .refl, he, rfl⟩
    · obtain ⟨path, hpath, ⟨file, e', hfile, he', htime⟩, -⟩ := honly _ h
      exact ⟨file, e', hfile.head ⟨e, he, path, hpath, rfl⟩, he', htime⟩
  · rintro t ⟨file, e', hfile, he', rfl⟩
    -- the file is the one that we start from, or can be reached from one of its imports
    rcases hfile.cases_head with rfl | ⟨other, ⟨e'', he'', path, hpath, rfl⟩, hrest⟩
    · rw [he] at he'
      cases he'
      exact hle.1
    · rw [he] at he''
      cases he''
      obtain ⟨t, ht, hnewest⟩ := hall path hpath
      exact (hnewest.2 ⟨file, e', hrest, he', rfl⟩).trans (hle.2 t ht)

end

/-! ## Finding files -/

theorem lookup_replace {α β : Type} [DecidableEq α] (x y : α) (v : β)
    (xs : List (α × β)) :
    ((x, v) :: xs.filter (·.1 != x)).lookup y = if y = x then some v else xs.lookup y := by
  by_cases hy : y = x
  · simp [hy]
  · have hrest : (xs.filter (·.1 != x)).lookup y = xs.lookup y := by
      induction xs with
      | nil => rfl
      | cons z xs ih =>
        obtain ⟨z, w⟩ := z
        by_cases hz : z = x
        · simpa [hz, List.lookup_cons, beq_false_of_ne hy] using ih
        · simp [hz, List.lookup_cons, ih]
    rw [if_neg hy, List.lookup_cons, beq_false_of_ne hy, hrest]

private theorem mem_of_lookup {α β : Type} [DecidableEq α] {x : α} {v : β} {xs : List (α × β)}
    (h : xs.lookup x = some v) : (x, v) ∈ xs := by
  induction xs with
  | nil => cases h
  | cons z xs ih =>
    obtain ⟨z, w⟩ := z
    rw [List.lookup_cons] at h
    split at h
    next hz =>
      cases h
      simp [eq_of_beq hz]
    next => exact List.mem_cons_of_mem _ (ih h)

section

variable {p : Project} {name : String} {dir path : Path} {parts : List String}

private theorem file?_of_find? {found : String} (h : find? p dir found = some (.file path)) :
    (p.file? path).isSome := by
  have hfile {place : String → Path} (h : (endings.findSome? fun e =>
      if (p.file? (place e)).isSome then some (Found.file (place e)) else none) = some (.file path)) :
      (p.file? path).isSome = true := by
    obtain ⟨e, -, he⟩ := List.exists_of_findSome?_eq_some h
    split at he
    next hplace =>
      cases he
      exact hplace
    next => cases he
  simp only [find?] at h
  split at h
  next hinside => exact hfile (hinside.trans h)
  next =>
    split at h
    next hbeside => exact hfile (hbeside.trans h)
    next => split at h <;> cases h

theorem file?_of_locate (h : locate p name dir parts = .ok path) : (p.file? path).isSome := by
  fun_induction locate p name dir parts with
  | case1 => cases h
  | case2 dir last found hfind =>
    cases h
    exact file?_of_find? hfind
  | case3 => cases h
  | case4 => cases h
  | case5 dir package rest hrest found hfind hpackage ih => exact ih h
  | case6 => cases h
  | case7 => cases h

theorem file?_of_target {package : Option String} (h : p.target name package statement = .ok path) :
    (p.file? path).isSome := by
  obtain ⟨module, -, hlocate⟩ := except_bind_eq_ok.mp h
  exact file?_of_locate hlocate

end

/-! ## What is remembered and kept -/

/-- The project with other things kept and remembered. -/
def Project.caching (p : Project) (kept : List (Path × Imports)) (known : List (String × Int)) :
    Project :=
  { p with kept, known }

theorem locate_caching (p : Project) (kept : List (Path × Imports)) (known : List (String × Int))
    (name : String) (dir : Path) (parts : List String) :
    locate (p.caching kept known) name dir parts = locate p name dir parts := by
  have hfind (dir : Path) (part : String) : find? (p.caching kept known) dir part = find? p dir part := rfl
  fun_induction locate p name dir parts with
  | case5 dir package rest hrest found hfound hpackage ih =>
    rw [locate, hfind, hfound]
    · simpa [hpackage] using ih
    · exact hrest
  | case1 => rfl
  | case2 dir last path hlast => rw [locate, hfind, hlast]
  | case3 dir last hlast => rw [locate, hfind, hlast]
  | case4 dir last hlast => rw [locate, hfind, hlast]
  | case6 dir package rest hrest found hfound hpackage =>
    rw [locate, hfind, hfound]
    · simp [hpackage]
    · exact hrest
  | case7 dir package rest hrest hfound =>
    rw [locate, hfind, hfound]
    exact hrest

theorem entry_caching (p : Project) (kept : List (Path × Imports)) (known : List (String × Int))
    (name : String) : (p.caching kept known).entry name = p.entry name := by
  have htarget (package : Option String) :
      (p.caching kept known).target name package = p.target name package := by
    funext statement
    simp only [Project.target, locate_caching]
    rfl
  unfold Project.entry
  simp only [htarget]
  rfl

/-- The imports that are kept are those of the file at that time, where it has it still; `seen` are
the times that files have had so far. -/
structure KeptSound (seen : List (Path × Int)) (p : Project) (kept : List (Path × Imports)) : Prop where
  seen : ∀ path found, kept.lookup path = some found → (path, found.time) ∈ seen
  eq : ∀ path found source, kept.lookup path = some found → p.file? path = some source →
    found.time = source.time → importsOf p source = .ok found

def KnownSound (p : Project) (known : List (String × Int)) : Prop :=
  ∀ name time, known.lookup name = some time → IsNewest p name time

/-- The times that files have are among those that they have had. -/
def FilesSeen (seen : List (Path × Int)) (p : Project) : Prop :=
  ∀ path source, p.file? path = some source → (path, source.time) ∈ seen

section

variable {p : Project} {seen : List (Path × Int)} {path : Path} {source : Source} {found : Imports}
  {kept : List (Path × Imports)} {known : List (String × Int)} {name : String} {time : Int}

theorem importsOf_time (h : importsOf p source = .ok found) : found.time = source.time := by
  unfold importsOf at h
  obtain ⟨text, -, h⟩ := except_bind_eq_ok.mp h
  split at h
  · cases h
  · obtain ⟨body, -, h⟩ := except_bind_eq_ok.mp h
    obtain ⟨elements, -, h⟩ := except_bind_eq_ok.mp h
    obtain ⟨macros, -, h⟩ := except_bind_eq_ok.mp h
    obtain ⟨dialects, -, h⟩ := except_bind_eq_ok.mp h
    obtain ⟨levels, -, h⟩ := except_bind_eq_ok.mp h
    cases h
    rfl

theorem KeptSound.replace (h : KeptSound seen p kept) (hseen : FilesSeen seen p)
    (hsource : p.file? path = some source) (hfound : importsOf p source = .ok found) :
    KeptSound seen p ((path, found) :: kept.filter (·.1 != path)) where
  seen := by
    intro other found' hlookup
    rw [lookup_replace] at hlookup
    split at hlookup
    next heq =>
      cases hlookup
      rw [heq, importsOf_time hfound]
      exact hseen path source hsource
    next => exact h.seen other found' hlookup
  eq := by
    intro other found' source' hlookup hsource' htime
    rw [lookup_replace] at hlookup
    split at hlookup
    next heq =>
      cases hlookup
      rw [heq, hsource] at hsource'
      cases hsource'
      exact hfound
    next => exact h.eq other found' source' hlookup hsource' htime

theorem KnownSound.replace (h : KnownSound p known) (hnewest : IsNewest p name time) :
    KnownSound p ((name, time) :: known.filter (·.1 != name)) := by
  intro other time' hlookup
  rw [lookup_replace] at hlookup
  split at hlookup
  next heq =>
    cases hlookup
    rw [heq]
    exact hnewest
  next => exact h other time' hlookup

theorem imports_eq (known : List (String × Int)) (h : KeptSound seen p kept) (hseen : FilesSeen seen p)
    (hsource : p.file? path = some source) (hfound : importsOf p source = .ok found) :
    ∃ kept', imports path source (p.caching kept known) = (.ok found, p.caching kept' known) ∧
      KeptSound seen p kept' := by
  have hrenew : ∃ kept', imports.renew path source (p.caching kept known) (p.caching kept known) =
      (.ok found, p.caching kept' known) ∧ KeptSound seen p kept' := by
    unfold imports.renew
    have hfound' : importsOf (p.caching kept known) source = .ok found := hfound
    rw [Act.lift_bind_ok hfound']
    dsimp only
    by_cases hkeeps : ((p.caching kept known).keeps &&
        (p.caching kept known).stores.contains path.parent)
    · refine ⟨_, ?_, h.replace hseen hsource hfound⟩
      rw [if_pos hkeeps]
      rfl
    · refine ⟨kept, ?_, h⟩
      rw [if_neg hkeeps]
      rfl
  unfold imports
  rw [Act.bind_ok (Act.get_run _)]
  have hkept : (p.caching kept known).kept = kept := rfl
  rw [hkept]
  cases hlookup : kept.lookup path with
  | none => exact hrenew
  | some found' =>
    by_cases htime : found'.time = source.time
    · have heq := h.eq path found' source hlookup hsource htime
      rw [hfound] at heq
      cases heq
      refine ⟨kept, ?_, h⟩
      simp only [htime, beq_self_eq_true, if_true]
      rfl
    · simp only [beq_false_of_ne htime]
      exact hrenew

end

/-! ## Asking for a time -/

section

variable {p : Project} {seen : List (Path × Int)}

/-- A list of files, each of which can be reached from the ones after it, and the last of them. -/
structure Trail (p : Project) (trail : List Path) (name : String) : Prop where
  nodup : trail.Nodup
  files : ∀ path ∈ trail, (p.file? path).isSome = true
  reaches : ∀ path ∈ trail, Reaches p path.text name

theorem Trail.length_le {trail : List Path} (h : Trail p trail name) :
    trail.length ≤ p.files.length := by
  have hsubset : trail ⊆ p.files.map (·.1) := by
    intro path hpath
    obtain ⟨source, hsource⟩ := Option.isSome_iff_exists.mp (h.files path hpath)
    exact List.mem_map.mpr ⟨_, mem_of_lookup hsource, rfl⟩
  simpa using (h.nodup.subperm hsubset).length_le

theorem Trail.cons {trail : List Path} {e : Entry} {path : Path} (h : Trail p trail name)
    (hcomplete : Complete p name) (he : p.entry name = .ok e) (hpath : path ∈ e.imported)
    (hfile : (p.file? path).isSome) : Trail p (path :: trail) path.text := by
  have hdep : DependsOn p name path.text := ⟨e, he, path, hpath, rfl⟩
  refine ⟨List.nodup_cons.mpr ⟨fun hmem => ?_, h.nodup⟩, ?_, ?_⟩
  · exact hcomplete.acyclic name .refl (.head' hdep (h.reaches path hmem))
  · simpa using ⟨hfile, h.files⟩
  · intro other hother
    rcases List.mem_cons.mp hother with rfl | hother
    · exact .refl
    · exact (h.reaches other hother).tail hdep

/-- Asking for the time of `name` finds it, whatever sound things are kept and remembered. -/
def Answers (seen : List (Path × Int)) (p : Project) (depth : Nat) (name : String) : Prop :=
  ∀ kept known, KeptSound seen p kept → KnownSound p known →
    ∃ time kept' known', newest depth name (p.caching kept known) =
        (.ok time, p.caching kept' known') ∧
      KeptSound seen p kept' ∧ KnownSound p known' ∧ IsNewest p name time

theorem dependency_run {package : Option String} {path : Path}
    (h : p.target name package statement = .ok path) (kept : List (Path × Imports))
    (known : List (String × Int)) :
    dependency name package statement (p.caching kept known) = (.ok path, p.caching kept known) := by
  obtain ⟨module, hmodule, hlocate⟩ := except_bind_eq_ok.mp h
  unfold dependency
  rw [Act.bind_ok (Act.get_run _), Act.lift_bind_ok hmodule, locate_caching]
  exact congrArg (fun r : Except Error Path => (r, p.caching kept known)) hlocate

/-- The time of a file, once those of its imports are known. -/
def record (name : String) (time : Int) (times : List Int) : M Int := do
  modify fun p => { p with known := (name, newestOf times time) :: p.known.filter (·.1 != name) }
  return newestOf times time

section

variable {depth : Nat} {name : String} {kept : List (Path × Imports)} {known : List (String × Int)}
  (hpy : name.endsWith ".py" = true)

include hpy

theorem newest_of_known (hlookup : known.lookup name = some time) :
    newest (depth + 1) name (p.caching kept known) = (.ok time, p.caching kept known) := by
  have hknown : (p.caching kept known).known = known := rfl
  unfold newest
  simp only [hpy, Bool.not_true, Bool.false_eq_true, if_false]
  rw [Act.bind_ok (Act.get_run _), hknown, hlookup]
  rfl

/-- For a time that is not remembered, those of the imports are asked for. -/
theorem newest_of_unknown {e : Entry} (hkept : KeptSound seen p kept) (hseen : FilesSeen seen p)
    (he : p.entry name = .ok e) (hlookup : known.lookup name = none) :
    ∃ package, ∃ statements : List Value, ∃ kept',
      statements.mapM (p.target name package) = .ok e.imported ∧
      KeptSound seen p kept' ∧ newest (depth + 1) name (p.caching kept known) =
        ((statements.mapM fun s => do newest depth (← dependency name package s).text) >>=
          record name e.time) (p.caching kept' known) := by
  unfold Project.entry at he
  obtain ⟨path, hpath, he⟩ := except_bind_eq_ok.mp he
  cases hsource : p.file? path with
  | none =>
    rw [hsource] at he
    cases he
  | some source =>
    rw [hsource] at he
    obtain ⟨found, hfound, he⟩ := except_bind_eq_ok.mp he
    obtain ⟨package, hpackage, he⟩ := except_bind_eq_ok.mp he
    obtain ⟨imported, himported, he⟩ := except_bind_eq_ok.mp he
    cases he
    obtain ⟨kept', himports, hkept'⟩ := imports_eq known hkept hseen hsource hfound
    refine ⟨package, found.statements, kept', himported, hkept', ?_⟩
    have hpath' : (p.caching kept known).places.resolve name = .ok path := hpath
    have hsource' : (p.caching kept known).file? path = some source := hsource
    have hknown : (p.caching kept known).known = known := rfl
    have hplaces : (p.caching kept known).places = p.places := rfl
    rw [newest]
    simp only [hpy, Bool.not_true, Bool.false_eq_true, if_false]
    rw [Act.bind_ok (Act.get_run _), hknown, hlookup]
    dsimp only
    rw [Act.lift_bind_ok hpath', hsource']
    dsimp only
    rw [Act.bind_ok himports, hplaces]
    unfold Project.package at hpackage
    split at hpackage
    next hrelative =>
      obtain ⟨text, htext, rfl⟩ : ∃ text, Import.packageOf p.places name = .ok text ∧
          some text = package := by
        cases htext : Import.packageOf p.places name with
        | error err => simp [htext, Except.map] at hpackage
        | ok text => exact ⟨text, rfl, by simpa [htext, Except.map] using hpackage⟩
      rw [if_pos hrelative, Act.lift_bind_ok htext]
      rfl
    next hrelative =>
      cases hpackage
      rw [if_neg hrelative]
      rfl

end

private theorem mapM_newest {depth : Nat} {package : Option String} {imported : List Path}
    (himported : statements.mapM (p.target name package) = .ok imported)
    (h : ∀ path ∈ imported, Answers seen p depth path.text) (kept : List (Path × Imports))
    (known : List (String × Int)) (hkept : KeptSound seen p kept) (hknown : KnownSound p known) :
    ∃ times kept' known',
      (statements.mapM fun s => do newest depth (← dependency name package s).text)
          (p.caching kept known) = (.ok times, p.caching kept' known') ∧
        KeptSound seen p kept' ∧ KnownSound p known' ∧
        (∀ path ∈ imported, ∃ t ∈ times, IsNewest p path.text t) ∧
        ∀ t ∈ times, ∃ path ∈ imported, IsNewest p path.text t := by
  induction statements generalizing imported kept known with
  | nil =>
    cases himported
    exact ⟨[], kept, known, rfl, hkept, hknown, by simp, by simp⟩
  | cons statement statements ih =>
    obtain ⟨path, rest, hpath, hrest, rfl⟩ := exists_of_mapM_cons himported
    obtain ⟨time, kept₁, known₁, hnewest, hkept₁, hknown₁, htime⟩ :=
      h path (by simp) kept known hkept hknown
    obtain ⟨times, kept₂, known₂, hrun, hkept₂, hknown₂, hall, honly⟩ :=
      ih hrest (fun other hother => h other (by simp [hother])) kept₁ known₁ hkept₁ hknown₁
    refine ⟨time :: times, kept₂, known₂, ?_, hkept₂, hknown₂, ?_, ?_⟩
    · have hfirst := Act.bind_ok (f := fun path => newest depth path.text)
        (dependency_run hpath kept known)
      rw [hnewest] at hfirst
      rw [List.mapM_cons, Act.bind_ok hfirst, Act.bind_ok hrun]
      rfl
    · simp only [List.mem_cons, forall_eq_or_imp, exists_eq_or_imp]
      exact ⟨.inl htime, fun other hother => .inr (hall other hother)⟩
    · simp only [List.mem_cons, forall_eq_or_imp, exists_eq_or_imp]
      exact ⟨.inl htime, fun t ht => .inr (honly t ht)⟩

private theorem file?_of_mapM_target {package : Option String} {imported : List Path} {path : Path}
    (himported : statements.mapM (p.target name package) = .ok imported) (hpath : path ∈ imported) :
    (p.file? path).isSome := by
  induction statements generalizing imported with
  | nil =>
    cases himported
    cases hpath
  | cons statement statements ih =>
    obtain ⟨first, rest, hfirst, hrest, rfl⟩ := exists_of_mapM_cons himported
    rcases List.mem_cons.mp hpath with rfl | hpath
    · exact file?_of_target hfirst
    · exact ih hrest hpath

/-- The depth suffices, since a trail in a graph without cycles is at most as long as there are
files. -/
theorem answers_of_complete (hseen : FilesSeen seen p) (depth : Nat) (name : String)
    (hcomplete : Complete p name) (trail : List Path) (htrail : Trail p trail name)
    (hdepth : p.files.length < depth + trail.length) : Answers seen p depth name := by
  induction depth generalizing name trail with
  | zero =>
    have hlength := htrail.length_le
    omega
  | succ depth ih =>
    intro kept known hkept hknown
    obtain ⟨hpy, e, he⟩ := hcomplete.readable name .refl
    cases hlookup : known.lookup name with
    | some time =>
      exact ⟨time, kept, known, newest_of_known hpy hlookup, hkept, hknown, hknown name time hlookup⟩
    | none =>
      obtain ⟨package, statements, kept₁, himported, hkept₁, hrun⟩ :=
        newest_of_unknown hpy hkept hseen he hlookup
      have hdeps : ∀ path ∈ e.imported, Answers seen p depth path.text := by
        intro path hpath
        have hfile := file?_of_mapM_target himported hpath
        apply ih path.text (hcomplete.of_dependsOn ⟨_, he, path, hpath, rfl⟩) (path :: trail)
        · exact htrail.cons hcomplete he hpath hfile
        · simp only [List.length_cons]
          omega
      obtain ⟨times, kept₂, known₂, htimes, hkept₂, hknown₂, hall, honly⟩ :=
        mapM_newest himported hdeps kept₁ known hkept₁ hknown
      have hnewest := isNewest_newestOf he hall honly
      refine ⟨newestOf times e.time, kept₂, _, ?_, hkept₂, hknown₂.replace hnewest, hnewest⟩
      rw [hrun, Act.bind_ok htimes]
      rfl

end

/-! ## Histories -/

inductive Event where
  | write (path : Path) (source : Source) (store : Bool)
  | touch (path : Path) (time : Int)
  | invalidate
  | ask (name : String)

/-- What was asked, of which project, and what the answer was. -/
structure Answer where
  project : Project
  name : String
  time : Except Error Int

def Project.after (p : Project) : Event → Project
  | .write path source store => p.write path source store
  | .touch path time => (p.touch path time).getD p
  | .invalidate => p.invalidate
  | .ask name => ((freshness name).runOn p).2

def Project.answers (p : Project) : List Event → List Answer
  | [] => []
  | .ask name :: events =>
    ⟨p, name, ((freshness name).runOn p).1⟩ :: (p.after (.ask name)).answers events
  | event :: events => (p.after event).answers events

def Project.times (p : Project) : List (Path × Int) := p.files.map fun (path, source) => (path, source.time)

/-- A history in which each change gives a file a time that it never had, given those seen so far, and
what is remembered is invalidated (`valid`) before a time is asked for. -/
def Orderly (seen : List (Path × Int)) (valid : Bool) (p : Project) : List Event → Prop
  | [] => True
  | .write path source store :: events =>
    (path, source.time) ∉ seen ∧
      Orderly ((path, source.time) :: seen) false (p.after (.write path source store)) events
  | .touch path time :: events =>
    (path, time) ∉ seen ∧ Orderly ((path, time) :: seen) false (p.after (.touch path time)) events
  | .invalidate :: events => Orderly seen true (p.after .invalidate) events
  | .ask name :: events =>
    valid = true ∧ Complete p name ∧ Orderly seen valid (p.after (.ask name)) events

/-- What is kept is sound, and so is what is remembered, while it is valid. -/
structure Consistent (seen : List (Path × Int)) (valid : Bool) (p : Project) : Prop where
  files : FilesSeen seen p
  kept : KeptSound seen p p.kept
  known : valid = true → KnownSound p p.known

section

variable {p : Project} {seen : List (Path × Int)} {valid : Bool}

theorem Consistent.start (hkept : p.kept = []) (hknown : p.known = []) :
    Consistent p.times true p := by
  refine ⟨?_, ⟨?_, ?_⟩, ?_⟩
  · intro path source hsource
    exact List.mem_map.mpr ⟨_, mem_of_lookup hsource, rfl⟩
  · simp [hkept]
  · simp [hkept]
  · simp [KnownSound, hknown]

theorem isNewest_caching {kept : List (Path × Imports)} {known : List (String × Int)} :
    IsNewest (p.caching kept known) name time ↔ IsNewest p name time := by
  have hdepends : DependsOn (p.caching kept known) = DependsOn p := by
    funext name other
    simp only [DependsOn, entry_caching]
  simp only [IsNewest, Reaches, hdepends, entry_caching]

theorem Consistent.caching {kept : List (Path × Imports)} {known : List (String × Int)}
    (hfiles : FilesSeen seen p) (hkept : KeptSound seen p kept) (hknown : KnownSound p known) :
    Consistent seen valid (p.caching kept known) where
  files := hfiles
  kept := ⟨hkept.seen, hkept.eq⟩
  known := fun _ name time hlookup => isNewest_caching.mpr (hknown name time hlookup)

/-- What is kept of a file is not taken for its imports after the file has got a new time. -/
theorem Consistent.replace {q : Project} {path : Path} (source : Source)
    (h : Consistent seen valid p) (hnew : (path, source.time) ∉ seen) (hparse : q.parse = p.parse) (hkept : q.kept = p.kept)
    (hfiles : q.files = (path, source) :: p.files.filter (·.1 != path)) :
    Consistent ((path, source.time) :: seen) false q := by
  have hfile (other : Path) : q.file? other = if other = path then some source else p.file? other := by
    rw [Project.file?, hfiles, lookup_replace, Project.file?]
  refine ⟨?_, ⟨?_, ?_⟩, fun hvalid => by cases hvalid⟩
  · intro other source' hsource'
    rw [hfile] at hsource'
    split at hsource'
    next heq =>
      cases hsource'
      simp [heq]
    next => exact List.mem_cons_of_mem _ (h.files other source' hsource')
  · intro other found hlookup
    rw [hkept] at hlookup
    exact List.mem_cons_of_mem _ (h.kept.seen other found hlookup)
  · intro other found source' hlookup hsource' htime
    rw [hkept] at hlookup
    rw [hfile] at hsource'
    split at hsource'
    next heq =>
      cases hsource'
      have hold := h.kept.seen other found hlookup
      rw [htime, heq] at hold
      exact absurd hold hnew
    next =>
      have hfound := h.kept.eq other found source' hlookup hsource' htime
      simpa only [importsOf, hparse] using hfound

theorem freshness_of_consistent (h : Consistent seen true p) (hcomplete : Complete p name) :
    ∃ time kept known, (freshness name).runOn p = (.ok time, p.caching kept known) ∧
      KeptSound seen p kept ∧ KnownSound p known ∧ IsNewest p name time := by
  have htrail : Trail p [] name := ⟨.nil, by simp, by simp⟩
  have hanswers := answers_of_complete h.files (p.files.length + 2) name hcomplete [] htrail
    (by simp only [List.length_nil]; omega)
  exact hanswers p.kept p.known h.kept (h.known rfl)

theorem Consistent.after (event : Event) (events : List Event) (h : Consistent seen valid p)
    (horderly : Orderly seen valid p (event :: events)) :
    ∃ seen' valid', Consistent seen' valid' (p.after event) ∧
      Orderly seen' valid' (p.after event) events := by
  cases event with
  | write path source store =>
    exact ⟨_, _, h.replace source horderly.1 rfl rfl rfl, horderly.2⟩
  | touch path time =>
    refine ⟨_, _, ?_, horderly.2⟩
    cases hfile : p.file? path with
    | none =>
      have hnot : p.touch path time = none := by simp [Project.touch, hfile]
      simp only [Project.after, hnot, Option.getD_none]
      exact ⟨fun other source hsource => List.mem_cons_of_mem _ (h.files other source hsource),
        ⟨fun other found hlookup => List.mem_cons_of_mem _ (h.kept.seen other found hlookup),
          h.kept.eq⟩, fun hvalid => by cases hvalid⟩
    | some source =>
      have htouch : p.touch path time =
          some { p with files := (path, { source with time }) :: p.files.filter (·.1 != path) } := by
        simp [Project.touch, hfile]
      simp only [Project.after, htouch, Option.getD_some]
      exact h.replace { source with time } horderly.1 rfl rfl rfl
  | invalidate =>
    exact ⟨_, _, .caching h.files h.kept (by simp [KnownSound]), horderly⟩
  | ask name =>
    obtain ⟨rfl, hcomplete, horderly⟩ := horderly
    obtain ⟨time, kept, known, hrun, hkept, hknown, -⟩ := freshness_of_consistent h hcomplete
    refine ⟨seen, true, ?_, horderly⟩
    simp only [Project.after, hrun]
    exact .caching h.files hkept hknown

theorem Consistent.answers {events : List Event} (h : Consistent seen valid p)
    (horderly : Orderly seen valid p events) {a : Answer} (ha : a ∈ p.answers events) :
    ∃ time, a.time = .ok time ∧ IsNewest a.project a.name time := by
  induction events generalizing p seen valid with
  | nil => cases ha
  | cons event events ih =>
    obtain ⟨seen', valid', hafter, hrest⟩ := h.after event events horderly
    cases event with
    | ask name =>
      rcases List.mem_cons.mp ha with rfl | ha
      · obtain ⟨rfl, hcomplete, -⟩ := horderly
        obtain ⟨time, kept, known, hrun, -, -, hnewest⟩ := freshness_of_consistent h hcomplete
        exact ⟨time, by simp only [hrun], hnewest⟩
      · exact ih hafter hrest ha
    | _ => exact ih hafter hrest ha

end

/-- In a project where nothing is kept or remembered at the start, each answer along an orderly history
is the time of the newest file that can be reached at that point. -/
theorem answers_newest {p : Project} {events : List Event} (hkept : p.kept = []) (hknown : p.known = [])
    (horderly : Orderly p.times true p events) {a : Answer} (ha : a ∈ p.answers events) :
    ∃ time, a.time = .ok time ∧ IsNewest a.project a.name time :=
  (Consistent.start hkept hknown).answers horderly ha

def importMacros (module : String) : Value :=
  .node .importFrom [("module", .str module), ("level", .int 0), ("names", .list
    [.node .importAlias [("name", .str "macros"), ("asname", .none)],
      .node .importAlias [("name", .str "f"), ("asname", .none)]])]

/-- Two files, of which `a.py` imports macros from `b.py`. -/
def twoFiles (time : Int) : Project where
  root := ⟨[]⟩
  files := [(⟨["b.py"]⟩, ⟨[], time⟩), (⟨["a.py"]⟩, ⟨[98], 1⟩)]
  keeps := true
  stores := [⟨[]⟩]
  kept := []
  known := []
  parse := fun text =>
    some (.node .module [("body", .list (if text = "b" then [importMacros "b"] else []))])

theorem entry_importing (time : Int) :
    (twoFiles time).entry "/a.py" = .ok ⟨1, [⟨["b.py"]⟩]⟩ := by cbv

theorem entry_imported (time : Int) : (twoFiles time).entry "/b.py" = .ok ⟨time, []⟩ := by cbv

/-- The time of `a.py` is asked for before and after `b.py` is written anew. -/
private def rewriting : List Event :=
  [.ask "/a.py", .write ⟨["b.py"]⟩ ⟨[], 5⟩ true, .invalidate, .ask "/a.py"]

theorem complete_of_entries {p : Project} {time' : Int}
    (ha : p.entry "/a.py" = .ok ⟨time, [⟨["b.py"]⟩]⟩) (hb : p.entry "/b.py" = .ok ⟨time', []⟩) :
    Complete p "/a.py" := by
  have hfrom : ∀ file, DependsOn p "/a.py" file → file = "/b.py" := by
    rintro file ⟨e, he, path, hpath, rfl⟩
    rw [ha] at he
    cases he
    rw [List.mem_singleton.mp hpath]
    decide
  have hend : ∀ file, ¬ DependsOn p "/b.py" file := by
    rintro file ⟨e, he, path, hpath, rfl⟩
    rw [hb] at he
    cases he
    cases hpath
  have hreaches : ∀ file, Reaches p "/a.py" file → file = "/a.py" ∨ file = "/b.py" := by
    intro file hfile
    rcases hfile.cases_head with rfl | ⟨other, hdep, hrest⟩
    · exact .inl rfl
    · rw [hfrom other hdep] at hrest
      rcases hrest.cases_head with rfl | ⟨next, hnext, -⟩
      · exact .inr rfl
      · exact absurd hnext (hend next)
  constructor
  · intro file hfile
    rcases hreaches file hfile with rfl | rfl
    · exact ⟨by decide +kernel, _, ha⟩
    · exact ⟨by decide +kernel, _, hb⟩
  · intro file hfile hcycle
    obtain ⟨other, hdep, hrest⟩ := Relation.TransGen.head'_iff.mp hcycle
    rcases hreaches file hfile with rfl | rfl
    · rw [hfrom other hdep] at hrest
      rcases hrest.cases_head with heq | ⟨next, hnext, -⟩
      · exact absurd heq (by decide)
      · exact hend next hnext
    · exact hend other hdep

theorem answers_newest_rewriting :
    Orderly (twoFiles 2).times true (twoFiles 2) rewriting ∧
      ((twoFiles 2).answers rewriting).map (·.name) = ["/a.py", "/a.py"] ∧
      ∀ a ∈ (twoFiles 2).answers rewriting,
        ∃ time, a.time = .ok time ∧ IsNewest a.project a.name time := by
  have hfirst := complete_of_entries (entry_importing 2) (entry_imported 2)
  have hsecond : Complete ((((twoFiles 2).after (.ask "/a.py")).after
      (.write ⟨["b.py"]⟩ ⟨[], 5⟩ true)).after .invalidate) "/a.py" := by
    obtain ⟨time, kept, known, hrun, -⟩ :=
      freshness_of_consistent (.start (p := twoFiles 2) rfl rfl) hfirst
    have hafter : (((twoFiles 2).after (.ask "/a.py")).after
        (.write ⟨["b.py"]⟩ ⟨[], 5⟩ true)).after .invalidate = (twoFiles 5).caching kept [] := by
      simp only [Project.after, hrun]
      rfl
    rw [hafter]
    exact complete_of_entries ((entry_caching _ _ _ _).trans (entry_importing 5))
      ((entry_caching _ _ _ _).trans (entry_imported 5))
  have horderly : Orderly (twoFiles 2).times true (twoFiles 2) rewriting :=
    ⟨rfl, hfirst, by decide, rfl, hsecond, trivial⟩
  exact ⟨horderly, rfl, fun a ha => answers_newest rfl rfl horderly ha⟩

end TreeMacros.Freshness
