import Mathlib
import TreeMacros.Tally.Report

/-!
# Counts of lines

What is included in a count can only add to it. Removing long strings joins pieces of lines, but each
line that is left begins where a line of the text begins, and it counts only if that one does.
-/

namespace TreeMacros.Tally

variable {f g : Counted} {quote : Char}

/-- All that is included on the left is included on the right. -/
instance : LE Counted where
  le f g := f.blanks ≤ g.blanks ∧ f.docstrings ≤ g.docstrings ∧ f.comments ≤ g.comments

theorem line_cons (f : Counted) (c : Char) (cs : List Char) :
    f.line (c :: cs) = if Text.isBlank c then f.line cs else c != '#' || f.comments := by
  unfold Counted.line
  rw [List.dropWhile_cons]
  cases Text.isBlank c with
  | true => rfl
  | false => by_cases hc : c = '#' <;> simp [hc]

theorem line_mono (h : f ≤ g) (line : List Char) (hf : f.line line) : g.line line := by
  unfold Counted.line at hf ⊢
  split
  · exact Bool.le_iff_imp.mp h.1 (by simp_all)
  · exact Bool.le_iff_imp.mp h.2.2 (by simp_all)
  · rfl

private theorem splitOn_cons (c : Char) (cs : List Char) :
    ∃ first others, cs.splitOn '\n' = first :: others ∧ (c :: cs).splitOn '\n' =
      if c = '\n' then [] :: first :: others else (c :: first) :: others := by
  obtain ⟨first, others, hcs⟩ := List.exists_cons_of_ne_nil (List.splitOn_ne_nil '\n' cs)
  refine ⟨first, others, hcs, ?_⟩
  rw [List.splitOn_cons_eq_if_modifyHead, hcs]
  simp

private theorem countP_cons_le {p : List Char → Bool} {a b : List Char} {as bs : List (List Char)}
    (h : p a → p b) (hrest : as.countP p ≤ bs.countP p) :
    (a :: as).countP p ≤ (b :: bs).countP p := by
  simp only [List.countP_cons]
  cases ha : p a with
  | false => simpa using hrest.trans (Nat.le_add_right _ _)
  | true => simpa [h ha] using hrest

private theorem countP_tail_cons (p : List Char → Bool) (c : Char) (cs : List Char) :
    (cs.splitOn '\n').tail.countP p ≤ ((c :: cs).splitOn '\n').tail.countP p := by
  obtain ⟨first, others, hcs, hcons⟩ := splitOn_cons c cs
  rw [hcs, hcons]
  split
  · exact (List.sublist_cons_self first others).countP_le
  · exact le_rfl

/-- The lines that are left of a text, but for the first one, count at most as many as those of the
text; outside of strings, the first one counts only if that of the text does. -/
theorem countP_removeStrings (f : Counted) (hline : quote ≠ '\n')
    (hquote : ∀ rest, f.line (quote :: rest)) (inside : Bool) (cs : List Char) :
    ((removeStrings quote inside cs).splitOn '\n').tail.countP f.line ≤
        (cs.splitOn '\n').tail.countP f.line ∧
      (inside = false → f.line (((removeStrings quote inside cs).splitOn '\n').headD []) →
        f.line ((cs.splitOn '\n').headD [])) := by
  fun_induction removeStrings quote inside cs with
  | case1 inside a b c rest h ih =>
    obtain ⟨⟨⟨rfl, rfl⟩, rfl⟩, -⟩ : ((a = quote ∧ b = quote) ∧ c = quote) ∧ _ := by simpa using h
    refine ⟨ih.1.trans ?_, fun _ _ => ?_⟩
    · exact (countP_tail_cons _ _ _).trans ((countP_tail_cons _ _ _).trans (countP_tail_cons _ _ _))
    · obtain ⟨first, others, -, hcons⟩ := splitOn_cons c (c :: c :: rest)
      rw [hcons, if_neg hline]
      exact hquote first
  | case2 a b c rest h ih => exact ⟨ih.1.trans (countP_tail_cons _ _ _), nofun⟩
  | case3 inside a b c rest h hinside ih =>
    obtain ⟨first, others, hcs, hcons⟩ := splitOn_cons a (b :: c :: rest)
    obtain ⟨first', others', hcs', hcons'⟩ :=
      splitOn_cons a (removeStrings quote inside (b :: c :: rest))
    rw [hcs, hcs'] at ih
    have hfirst := ih.2 (by simpa using hinside)
    rw [hcons, hcons']
    dsimp only [List.tail_cons, List.headD_cons] at ih hfirst
    split
    · refine ⟨?_, fun _ h => h⟩
      exact countP_cons_le hfirst ih.1
    · refine ⟨ih.1, fun _ => ?_⟩
      simp only [List.headD_cons, line_cons]
      split
      · exact hfirst
      · exact id
  | case4 => simp
  | case5 => exact ⟨le_rfl, fun _ => id⟩

theorem countP_removeStrings_le (f : Counted) (hline : quote ≠ '\n')
    (hquote : ∀ rest, f.line (quote :: rest)) (cs : List Char) :
    ((removeStrings quote false cs).splitOn '\n').countP f.line ≤
      (cs.splitOn '\n').countP f.line := by
  obtain ⟨hothers, hfirst⟩ := countP_removeStrings f hline hquote false cs
  obtain ⟨first, others, hcs⟩ := List.exists_cons_of_ne_nil (List.splitOn_ne_nil '\n' cs)
  obtain ⟨first', others', hcs'⟩ :=
    List.exists_cons_of_ne_nil (List.splitOn_ne_nil '\n' (removeStrings quote false cs))
  rw [hcs, hcs'] at hothers hfirst ⊢
  exact countP_cons_le (hfirst rfl) hothers

theorem countP_removeDocstrings_le (f : Counted) (cs : List Char) :
    ((removeDocstrings cs).splitOn '\n').countP f.line ≤ (cs.splitOn '\n').countP f.line := by
  have hquote (quote : Char) (h : Text.isBlank quote = false) (hsharp : quote ≠ '#')
      (rest : List Char) : f.line (quote :: rest) := by
    simp [line_cons, h, hsharp]
  calc ((removeDocstrings cs).splitOn '\n').countP f.line
      ≤ ((removeStrings '"' false cs).splitOn '\n').countP f.line :=
        countP_removeStrings_le f (by decide) (hquote _ rfl (by decide)) _
    _ ≤ (cs.splitOn '\n').countP f.line :=
        countP_removeStrings_le f (by decide) (hquote _ rfl (by decide)) _

/-- The more is included, the more lines are counted; so no file has more lines of code than
lines. -/
theorem countLines_mono :
    (∀ (f g : Counted), f ≤ g → ∀ text, countLines f text ≤ countLines g text) ∧
      ∀ text, (Size.ofText text).code ≤ (Size.ofText text).lines := by
  have hmono (f g : Counted) (h : f ≤ g) (text : String) : countLines f text ≤ countLines g text := by
    have hlines (cs : List Char) : (cs.splitOn '\n').countP f.line ≤ (cs.splitOn '\n').countP g.line :=
      List.countP_mono_left fun line _ => line_mono h line
    unfold countLines
    cases hg : g.docstrings with
    | false =>
      have hf : f.docstrings = false := le_antisymm (hg ▸ h.2.1) (Bool.false_le _)
      rw [hf]
      exact hlines _
    | true =>
      cases f.docstrings with
      | false => exact (countP_removeDocstrings_le f _).trans (hlines _)
      | true => exact hlines _
  exact ⟨hmono, fun text => hmono .code .all ⟨by decide, by decide, by decide⟩ _⟩

/-- The lines of a string are joined with what stands before and after it. -/
theorem countLines_mono_string :
    Counted.code ≤ ⟨false, true, false⟩ ∧ countLines .code "x = \"\"\"a\nb\"\"\" + y\n# z\n" = 1 ∧
      countLines ⟨false, true, false⟩ "x = \"\"\"a\nb\"\"\" + y\n# z\n" = 2 ∧
      countLines .code "x = \"\"\"a\nb\"\"\" + y\n# z\n" ≤
        countLines ⟨false, true, false⟩ "x = \"\"\"a\nb\"\"\" + y\n# z\n" := by
  have h : Counted.code ≤ ⟨false, true, false⟩ := ⟨by decide, by decide, by decide⟩
  exact ⟨h, by decide +kernel, by decide +kernel, countLines_mono.1 _ _ h _⟩

end TreeMacros.Tally
