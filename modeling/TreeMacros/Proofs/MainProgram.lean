import TreeMacros.Launch.Program
import TreeMacros.Proofs.Loading

/-!
# The main program after a run

A run that fails before the module is executed leaves the main program alone. If the module itself
fails, the main program is what was remembered, and this need not be what it was before the run.
-/

namespace TreeMacros.Launch

open Act (Keeps keeps_pure keeps_throw keeps_get)

variable {μ : Type} {launched remembered main main' : μ} {name : String} {asScript shown : Bool}
  {w t : World} {e : Error}

/-- A module is in no package, or in one that can be loaded; `shown` tells whether that says where
its parts are. -/
inductive Reached (w : World) (name : String) (asScript : Bool) : Bool → Prop
  | alone (hparent : Import.parent? name = none) : Reached w name asScript false
  | inside {package last : String} {bs : Bindings} {t : World}
      (hparent : Import.parent? name = some (package, last)) (hmodule : asScript = false)
      (hload : Import.load package w = (.ok bs, t)) :
      Reached w name asScript (showsParts w package)

/-- The run comes to execute the module: it is there, its package is, and it is not a package that is
run by its main part. -/
def Starts (w : World) (name : String) (asScript : Bool) : Prop :=
  name.toList.head? ≠ some '.' ∧ ∃ shown source, Reached w name asScript shown ∧
    w.modules.lookup name = some source ∧
      (asScript = true ∨ shown = true ∨ (originOf w name source).endsWith "__init__.py" = false)

theorem absoluteName_none (name : String) : Import.absoluteName name none =
    if name.toList.head? = some '.' then .error (.fault (.noPackage name)) else .ok name := by
  unfold Import.absoluteName
  cases name.toList with
  | nil => rfl
  | cons c cs =>
    by_cases hc : c = '.'
    · simp [hc]
    · simp [hc]
      rfl

theorem keeps_importPackage (name : String) (asScript : Bool) :
    Keeps World.LoadsOnly (importPackage name asScript) := by
  unfold importPackage
  split
  · apply keeps_pure
  · split
    · apply keeps_throw
    · exact (Import.keeps_load _).bind fun _ => keeps_get.bind fun _ => keeps_pure _

theorem reached_iff : Reached w name asScript shown ↔
    ∃ package t, importPackage name asScript w = (.ok (package, shown), t) := by
  have hshows {package : String} {bs : Bindings} {s : World}
      (hload : Import.load package w = (.ok bs, s)) : showsParts s package = showsParts w package := by
    obtain ⟨made, loaded, executed, rfl⟩ := (Import.keeps_load _).of_run hload
    rfl
  unfold importPackage
  constructor
  · rintro (hparent | @⟨package, last, bs, s, hparent, rfl, hload⟩)
    · rw [hparent]
      exact ⟨none, w, rfl⟩
    · rw [hparent, ← hshows hload]
      exact ⟨some package, s, Act.bind_ok hload⟩
  · rintro ⟨package, t, hrun⟩
    rcases hparent : Import.parent? name with _ | ⟨parent, last⟩
    · rw [hparent] at hrun
      cases hrun
      exact .alone hparent
    · rw [hparent] at hrun
      cases asScript with
      | true => cases hrun
      | false =>
        obtain ⟨bs, s, hload, hrun⟩ := Act.bind_eq_ok.mp hrun
        cases hrun
        have hreached := Reached.inside hparent rfl hload
        rwa [← hshows hload] at hreached

theorem locate_eq_ok {found : Located} {u : World} (ht : World.LoadsOnly w t) :
    locate name t = (.ok found, u) ↔ ∃ source, w.modules.lookup name = some source ∧
      found = ⟨name, source, originOf w name source, Import.isPackage w name⟩ ∧ u = t := by
  obtain ⟨made, loaded, executed, rfl⟩ := ht
  unfold locate
  rw [Act.bind_ok (Act.get_run _)]
  cases w.modules.lookup name with
  | none =>
    constructor
    · intro h
      cases h
    · rintro ⟨_, ⟨⟩, _⟩
  | some source =>
    constructor
    · intro h
      cases h
      exact ⟨source, rfl, rfl, rfl⟩
    · rintro ⟨_, ⟨⟩, rfl, rfl⟩
      rfl

/-- A run executes the module exactly if its preparations end without a package to import. -/
theorem starts_iff : Starts w name asScript ↔
    ∃ found package t, prepare name asScript w = (.ok (found, package, false), t) := by
  unfold prepare
  rw [absoluteName_none]
  constructor
  · rintro ⟨hdot, shown, source, hreached, hsource, hwhole⟩
    obtain ⟨package, t, himport⟩ := reached_iff.mp hreached
    have ht := (keeps_importPackage _ _).of_run himport
    rw [if_neg hdot, Act.lift_bind_ok rfl, Act.bind_ok himport,
      Act.bind_ok ((locate_eq_ok ht).mpr ⟨source, hsource, rfl, rfl⟩)]
    have hpart : Located.isWhole ⟨name, source, originOf w name source, Import.isPackage w name⟩
        asScript shown = false := by
      rcases hwhole with rfl | rfl | h <;> simp [Located.isWhole, *]
    rw [hpart]
    exact ⟨_, _, _, rfl⟩
  · rintro ⟨found, package, u, hrun⟩
    obtain ⟨full, hfull, hrun⟩ := Act.lift_bind_eq_ok.mp hrun
    by_cases hdot : name.toList.head? = some '.'
    · rw [if_pos hdot] at hfull
      cases hfull
    · rw [if_neg hdot] at hfull
      cases hfull
      obtain ⟨⟨parent, shown⟩, t, himport, hlocate⟩ := Act.bind_eq_ok.mp hrun
      obtain ⟨found', u', hfound, hpure⟩ := Act.bind_eq_ok.mp hlocate
      have ht := (keeps_importPackage _ _).of_run himport
      obtain ⟨source, hsource, rfl, -⟩ := (locate_eq_ok ht).mp hfound
      have hpart : Located.isWhole ⟨name, source, originOf w name source, Import.isPackage w name⟩
          asScript shown = false := by
        injection hpure with hok
        injection hok with hok
        exact congrArg (·.2.2) hok
      refine ⟨hdot, shown, source, reached_iff.mpr ⟨parent, t, himport⟩, hsource, ?_⟩
      cases asScript <;> cases shown <;> simp_all [Located.isWhole]

/-- After a run that fails, the main program is what was remembered if the module has been executed,
and else what it was before. -/
theorem main_of_failed_run (hrun : runWith launched remembered name asScript (w, main) =
      (.error e, t, main')) :
    (Starts w name asScript → main' = remembered) ∧ (¬Starts w name asScript → main' = main) := by
  rw [starts_iff]
  unfold runWith at hrun
  rcases hprepare : prepare name asScript w with ⟨e' | ⟨found, package, _ | _⟩, s⟩
  · simp only [hprepare] at hrun
    cases hrun
    exact ⟨fun ⟨_, _, _, h⟩ => (nomatch h), fun _ => rfl⟩
  · refine ⟨fun _ => ?_, fun h => absurd ⟨found, package, s, rfl⟩ h⟩
    simp only [hprepare, Bool.false_eq_true, if_false] at hrun
    split at hrun
    · cases hrun
      rfl
    · cases hrun
  · simp only [hprepare, if_true] at hrun
    injection hrun with _ hstate
    injection hstate with _ hmain
    exact ⟨fun ⟨_, _, _, h⟩ => (nomatch h), fun _ => hmain.symm⟩

private def failing : World :=
  { (default : World) with modules := [("job", ⟨[], some (.fault (.noModule "data")), false, none⟩)] }

theorem main_of_failed_run_failing : Starts failing "job" true ∧
    (runWith MainProgram.replaced .unchanged "job" true (failing, .unchanged)).2.2 = .unchanged := by
  have hstarts : Starts failing "job" true :=
    ⟨by decide, false, _, .alone (by rfl), by rfl, .inl rfl⟩
  have hrun : runWith MainProgram.replaced .unchanged "job" true (failing, .unchanged) =
      (.error (.fault (.noModule "data")),
        { failing with executed := [⟨"job", mainName, ""⟩] }, .unchanged) := by rfl
  exact ⟨hstarts, (main_of_failed_run hrun).1 hstarts⟩

/-- The main program is lost if none was remembered. -/
theorem main_missing_of_failing :
    ∃ t, runAsMain "job" true (failing, .unchanged) =
      (.error (.fault (.noModule "data")), t, .missing) :=
  ⟨{ failing with executed := [⟨"job", mainName, ""⟩] }, by rfl⟩

end TreeMacros.Launch
