import Mathlib.Data.List.Nodup
import TreeMacros.Names

/-!
# Fresh names are fresh

A name that the supply gives out has not been given out before. The numbers may repeat themselves,
but a name tells the number that it was made with, so it has not been used if the number is new.
-/

namespace TreeMacros

namespace Text

def digitValue (c : Char) : Nat :=
  if c.isDigit then c.toNat - 48 else c.toNat - 87

def digitsValue (cs : List Char) : Nat := cs.foldl (fun n c => 16 * n + digitValue c) 0

theorem digitValue_digitChar {d : Nat} (h : d < 16) : digitValue d.digitChar = d := by
  have hall : ∀ d < 16, digitValue (Nat.digitChar d) = d := by decide
  exact hall d h

theorem digitsValue_toDigits (n : Nat) : digitsValue (Nat.toDigits 16 n) = n := by
  induction n using Nat.strongRecOn with
  | ind n ih =>
    rw [Nat.toDigits_eq_if (by decide)]
    by_cases h : n < 16
    · simp [h, digitsValue, digitValue_digitChar h]
    · have hdiv := ih (n / 16) (by omega)
      have hmod : n % 16 < 16 := Nat.mod_lt _ (by decide)
      unfold digitsValue at hdiv ⊢
      rw [if_neg h, List.foldl_append, hdiv, List.foldl_cons, List.foldl_nil,
        digitValue_digitChar hmod]
      omega

theorem digitsValue_zeros (n : Nat) (cs : List Char) :
    digitsValue (List.replicate n '0' ++ cs) = digitsValue cs := by
  induction n with
  | zero => rfl
  | succ n ih =>
    rw [List.replicate_succ, List.cons_append]
    exact ih

theorem digitsValue_hex (width n : Nat) : digitsValue (hex width n).toList = n := by
  simp [hex, digitsValue_zeros, digitsValue_toDigits]

theorem hex_injective (width : Nat) : Function.Injective (hex width) := by
  intro m n h
  rw [← digitsValue_hex width m, h, digitsValue_hex]

section

variable {c : Char} (hc : ∀ d < 16, c ≠ Nat.digitChar d)

include hc

theorem notMem_toDigits (n : Nat) : c ∉ Nat.toDigits 16 n := by
  induction n using Nat.strongRecOn with
  | ind n ih =>
    rw [Nat.toDigits_eq_if (by decide)]
    by_cases h : n < 16
    · simp [h, hc n h]
    · have hdigit := hc (n % 16) (Nat.mod_lt _ (by decide))
      simp [h, hdigit, ih (n / 16) (by omega)]

theorem notMem_hex (width n : Nat) : c ∉ (hex width n).toList := by
  have hzero : c ≠ '0' := hc 0 (by decide)
  simp [hex, hzero, notMem_toDigits hc]

end

end Text

namespace NameSupply

theorem eq_of_name_eq {base base' : String} {m n : Nat} (h : name base m = name base' n) : m = n := by
  -- The digits are what stands behind the last underscore.
  have hdigits (base : String) (n : Nat) :
      (name base n).toList.reverse.takeWhile (· != '_') = (Text.hex 32 n).toList.reverse := by
    have hall : ∀ c ∈ (Text.hex 32 n).toList.reverse, (c != '_') := by
      intro c hc
      rw [bne_iff_ne]
      rintro rfl
      exact Text.notMem_hex (by decide) 32 n (List.mem_reverse.mp hc)
    have hsplit : (name base n).toList.reverse =
        (Text.hex 32 n).toList.reverse ++ '_' :: base.toList.reverse := by
      simp [name]
    rw [hsplit, List.takeWhile_append_of_pos hall]
    simp
  have hreverse := hdigits base m
  rw [h, hdigits base' n, List.reverse_inj] at hreverse
  exact (Text.hex_injective 32 (String.toList_inj.mp hreverse)).symm

variable {s : NameSupply} {base : String} {tries i j : Nat}

theorem mem_used_of_lt_search (hij : i ≤ j) (hj : j < s.search base tries i) :
    name base (s.source.number j) ∈ s.used := by
  induction tries generalizing i with
  | zero =>
    rw [search] at hj
    omega
  | succ tries ih =>
    rw [search] at hj
    split at hj
    next hused =>
      by_cases hi : j = i
      · rw [hi]
        simpa using hused
      · exact ih (by omega) hj
    next => omega

theorem search_notMem (hij : i ≤ j) (htries : j ≤ i + tries)
    (h : name base (s.source.number j) ∉ s.used) :
    name base (s.source.number (s.search base tries i)) ∉ s.used := by
  induction tries generalizing i with
  | zero =>
    obtain rfl : j = i := by omega
    exact h
  | succ tries ih =>
    rw [search]
    split
    next hused =>
      have hne : j ≠ i := by
        rintro rfl
        exact h (by simpa using hused)
      exact ih (by omega) (by omega)
    next hused => simpa using hused

theorem name_renewal_notMem (s : NameSupply) (base : String) :
    name base (s.source.number (s.source.renewal s.taken)) ∉ s.used := by
  intro hmem
  obtain ⟨base', k, hk, heq⟩ := s.used_taken _ hmem
  exact s.source.number_renewal s.taken k hk (eq_of_name_eq heq).symm

def baseOf (base : Value) : String := if base.isTruthy then base.display else "gensym"

/-- A fresh name is the first one that has not been used: numbers are taken up to the one that it is
made with, and the names that are made with the others have been used. -/
theorem fresh_spec (s : NameSupply) (base : Value) :
    ∃ i, s.taken ≤ i ∧ (∀ j, s.taken ≤ j → j < i → name (baseOf base) (s.source.number j) ∈ s.used) ∧
      name (baseOf base) (s.source.number i) ∉ s.used ∧
      (s.fresh base).1 = name (baseOf base) (s.source.number i) ∧
      (s.fresh base).2.source = s.source ∧ (s.fresh base).2.taken = i + 1 ∧
      (s.fresh base).2.used = (s.fresh base).1 :: s.used := by
  have hle := s.source.le_renewal s.taken
  refine ⟨_, s.le_search (baseOf base) (s.source.renewal s.taken - s.taken) s.taken,
    fun j hj hlt => mem_used_of_lt_search hj hlt, ?_, rfl, rfl, rfl, rfl⟩
  exact search_notMem hle (by omega) (s.name_renewal_notMem (baseOf base))

theorem fresh_notMem (s : NameSupply) (base : Value) : (s.fresh base).1 ∉ s.used := by
  obtain ⟨i, -, -, hnew, hname, -⟩ := s.fresh_spec base
  rw [hname]
  exact hnew

theorem fresh_ne_empty (s : NameSupply) (base : Value) : (s.fresh base).1 ≠ "" := by
  obtain ⟨i, -, -, -, hname, -⟩ := s.fresh_spec base
  simp [hname, name]

theorem fresh_used (s : NameSupply) (base : Value) :
    (s.fresh base).2.used = (s.fresh base).1 :: s.used := rfl

end NameSupply

end TreeMacros
