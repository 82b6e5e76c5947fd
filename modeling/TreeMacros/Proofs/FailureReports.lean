import TreeMacros.Expansion.Expander
import TreeMacros.Library.Basic
import TreeMacros.Proofs.Action

/-!
# Reports of failures

What becomes of a failure of a macro. If the macro itself fails, the report names the place of the
use and rests on the failure. If the macro fails while its output is taken, the report still names
the place, but rests on nothing.
-/

namespace TreeMacros

variable {e : Error} {location site : String}

namespace Error

/-- What an error rests on: its cause, the cause of that, and so on. -/
def causes : Error → List Error
  | fault _ => []
  | report _ none => []
  | report _ (some c) => c :: c.causes

/-- Whether an error is itself a report that rests on a failure. -/
def isNested (e : Error) : Bool := e.kind == .expansionError && e.cause?.isSome

/-- What went wrong in the first place. The reports on nested uses are put together in one, which
rests on what they have rested on. -/
def original (e : Error) : Error := if e.isNested then e.cause?.getD e else e

/-- Whether an error is a nested report that has nothing to say. -/
def isMute (e : Error) : Bool := e.isNested && (e.argument?.getD "").isEmpty

/-- A report that names a place. -/
structure Locates (r : Error) (location : String) : Prop where
  kind : r.kind = .expansionError
  named : ∃ text, r.message? = some text ∧ location.toList <:+: text.toList

theorem cause_mem_causes {r c : Error} (h : r.cause? = some c) : c ∈ r.causes := by
  cases r with
  | fault f => cases h
  | report p d =>
    cases h
    simp [causes]

theorem original_of_not_isNested (h : e.isNested = false) : e.original = e := by
  simp [original, h]

theorem locates_useSite (before after : String) (c : Option Error)
    (h : location.toList <:+: site.toList) :
    Locates (.report (.useSite (before ++ site ++ after)) c) location := by
  refine ⟨rfl, before ++ site ++ after, rfl, ?_⟩
  rw [String.toList_append, String.toList_append]
  exact h.trans (List.infix_append ..)

theorem atUse_of_not_isNested (site : String) (h : e.isNested = false) :
    e.atUse site = .report (.useSite site) (some e) := by
  unfold atUse
  split
  · rename_i hkind hcause
    simp [isNested, hkind, hcause] at h
  · rfl

theorem atUse_of_isNested (site : String) (h : e.isNested) (hmute : e.isMute = false) :
    ∃ old, e.atUse site = .report (.useSite ("\n" ++ site ++ "\n" ++ old)) (some e.original) := by
  obtain ⟨hkind, hcause⟩ : e.kind = .expansionError ∧ e.cause?.isSome := by
    simpa [isNested] using h
  obtain ⟨c, hc⟩ := Option.isSome_iff_exists.mp hcause
  have horiginal : e.original = c := by simp [original, h, hc]
  have hsays : (e.argument?.getD "").isEmpty = false := by simpa [isMute, h] using hmute
  cases harg : e.argument? with
  | none => simp [harg] at hsays
  | some text =>
    have htext : text.toList ≠ [] := by
      intro hnil
      rw [String.toList_eq_nil_iff] at hnil
      simp [harg, hnil] at hsays
    unfold atUse
    simp only [hkind, hc, harg, Option.map_some, horiginal]
    split
    · exact ⟨_, rfl⟩
    · exact ⟨_, rfl⟩
    · rename_i hnil
      exact absurd (Option.some.inj hnil) htext
    · rename_i hnone
      cases hnone

theorem kind_atUse_of_isMute (site : String) (h : e.isMute) :
    (e.atUse site).kind = .indexError := by
  obtain ⟨hnested, hempty⟩ : e.isNested ∧ (e.argument?.getD "").isEmpty := by
    simpa [isMute] using h
  obtain ⟨hkind, hcause⟩ : e.kind = .expansionError ∧ e.cause?.isSome := by
    simpa [isNested] using hnested
  obtain ⟨c, hc⟩ := Option.isSome_iff_exists.mp hcause
  unfold atUse
  cases harg : e.argument? with
  | none =>
    simp only [hkind, hc, Option.map_none]
    rfl
  | some text =>
    have htext : text.toList = [] := by simpa [harg] using hempty
    simp only [hkind, hc, Option.map_some, htext]
    rfl

/-- The report on a failure names the place of the use and rests on the failure, unless the failure
is a mute report. -/
theorem atUse_reports (hmute : e.isMute = false) (hsite : location.toList <:+: site.toList) :
    (e.atUse site).Locates location ∧ e.original ∈ (e.atUse site).causes := by
  cases hnested : e.isNested with
  | false =>
    rw [atUse_of_not_isNested site hnested, original_of_not_isNested hnested]
    have hlocates := locates_useSite "" "" (some e) hsite
    rw [String.append_empty, String.empty_append] at hlocates
    exact ⟨hlocates, cause_mem_causes rfl⟩
  | true =>
    obtain ⟨old, hold⟩ := atUse_of_isNested site hnested hmute
    have hlocates := locates_useSite "\n" ("\n" ++ old) (some e.original) hsite
    rw [← String.append_assoc] at hlocates
    rw [hold]
    exact ⟨hlocates, cause_mem_causes rfl⟩

end Error

theorem location_infix_useSite (location : String) (form : Form) (name : String) :
    location.toList <:+: (useSite location form name).toList := by
  apply List.IsPrefix.isInfix
  simp [useSite, String.toList_append, List.append_assoc, toString]

theorem prefix_expansionType (location typeName repr : String) :
    location.toList <+: (Report.expansionType location typeName repr).message.toList := by
  have hmessage : (Report.expansionType location typeName repr).message =
      s!"{location}\nexpected macro to return AST, iterable or None; got {typeName} with value {repr}" :=
    rfl
  rw [hmessage]
  simp [String.toList_append, List.append_assoc, toString]

theorem locates_unfinishedOutput (location : String) :
    (unfinishedOutput location).Locates location :=
  ⟨rfl, _, rfl, (prefix_expansionType location _ _).isInfix⟩

namespace Expander

variable {visit : Visit} {x : Expander} {i : Invocation} {b : Binding} {w t u : World} {e : Error}

/-- The place of an invocation, as reports name it. -/
def placeOf (x : Expander) (i : Invocation) : String :=
  formatLocation x.filename i.call.invocation (some i.source)

theorem expand_of_apply_error (hb : x.bound? i.name w = (.ok (some b), w))
    (h : apply visit x b i.call w = (.error e, t)) :
    x.expand visit i w =
      (.error (e.atUse (useSite (x.placeOf i) i.call.form i.name.display)), t) := by
  have hattempt : Act.attempt (apply visit x b i.call) w = (.ok (.error e), t) := by
    simp only [Act.attempt, h]
  unfold expand
  rw [Act.bind_ok hb]
  exact Act.bind_ok hattempt

theorem expand_of_pending_error {m : Macro} {p : Program}
    (hb : x.bound? i.name w = (.ok (some b), w))
    (h : apply visit x b i.call w = (.ok (.pending m p), t))
    (hrun : run visit x m p t = (.error e, u)) :
    x.expand visit i w = (.error (unfinishedOutput (x.placeOf i)), u) := by
  have hattempt : Act.attempt (apply visit x b i.call) w = (.ok (.ok (.pending m p)), t) := by
    simp only [Act.attempt, h]
  have hpending : Act.attempt (run visit x m p) t = (.ok (.error e), u) := by
    simp only [Act.attempt, hrun]
  have htake : takeOutput visit x (x.placeOf i) (.pending m p) t =
      (.error (unfinishedOutput (x.placeOf i)), u) := by
    unfold takeOutput
    exact Act.bind_ok hpending
  unfold expand
  rw [Act.bind_ok hb]
  exact (Act.bind_ok hattempt).trans (Act.bind_error htake)

/-- A macro that fails, and an expander with it and with custom literals. -/
def failing : Macro :=
  ⟨.made 0, "m", "m", none, false, false,
    .eager fun _ => .fail (.report (.scripted .valueError (some "no")) none)⟩

def withFailing : Expander :=
  ⟨[("m", .transformer failing),
    ("c", .transformer (Library.make "customliterals" (.lazy Library.customLiterals)))],
   "example.py"⟩

/-- The invocation `m[x]`, on the second line. -/
def failingUse : Value :=
  .node .subscript
    [("value", .node .name [("id", .str "m"), ("ctx", .node .load [])]),
     ("slice", .node .index [("value", .node .name [("id", .str "x"), ("ctx", .node .load [])])]),
     ("ctx", .node .load []), ("lineno", .int 2), ("col_offset", .int 4)]

def failingBlock : Value :=
  .node .module
    [("body", .list [.node .withStmt
      [("items", .list [.node .withItem
        [("context_expr", .node .name [("id", .str "c"), ("ctx", .node .load [])])]]),
       ("body", .list [.node .exprStmt [("value", failingUse)]]),
       ("lineno", .int 1), ("col_offset", .int 0)]]),
     ("type_ignores", .list [])]

end Expander

end TreeMacros
