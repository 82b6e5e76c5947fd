import TreeMacros.Tree.Value

/-!
# Fresh names

A fresh name is a base name with a number that has not been used with it before. The numbers come
from a source that may repeat itself, but in which new numbers keep coming up.
-/

namespace TreeMacros

/-- A stream of numbers in which new ones keep coming up. -/
structure NumberSource where
  number : Nat → Nat
  /-- A place from some place on where a number stands that has not come before. -/
  renewal : Nat → Nat
  le_renewal : ∀ i, i ≤ renewal i
  number_renewal : ∀ i, ∀ k < i, number k ≠ number (renewal i)

namespace NumberSource

/-- The numbers of a queue, and after them all numbers from 1 on. -/
def ofQueue (queue : List Nat) : NumberSource where
  number i := queue[i]?.getD (i + 1 - queue.length)
  renewal i := queue.length + i + queue.foldr max 0
  le_renewal i := by omega
  number_renewal i k hk := by
    have hle : ∀ n ∈ queue, n ≤ queue.foldr max 0 := by
      intro n hn
      induction queue with
      | nil => cases hn
      | cons m queue ih =>
        rw [List.foldr_cons]
        rcases List.mem_cons.mp hn with rfl | hn
        · exact Nat.le_max_left _ _
        · exact Nat.le_trans (ih hn) (Nat.le_max_right _ _)
    rw [List.getElem?_eq_none (by omega : queue.length ≤ queue.length + i + queue.foldr max 0),
      Option.getD_none]
    cases hq : queue[k]? with
    | none =>
      rw [Option.getD_none]
      omega
    | some n =>
      have := hle n (List.mem_of_getElem? hq)
      rw [Option.getD_some]
      omega

end NumberSource

/-- A base name with a number. -/
def NameSupply.name (base : String) (n : Nat) : String := base ++ "_" ++ Text.hex 32 n

structure NameSupply where
  source : NumberSource
  /-- How many numbers have been taken from the source. -/
  taken : Nat
  used : List String
  used_taken : ∀ sym ∈ used, ∃ base, ∃ k < taken, sym = NameSupply.name base (source.number k)

namespace NameSupply

def ofSource (source : NumberSource) : NameSupply := ⟨source, 0, [], by simp⟩

def ofQueue (queue : List Nat) : NameSupply := ofSource (.ofQueue queue)

instance : Inhabited NameSupply := ⟨ofQueue []⟩

/-- The place of the first number from `i` on whose name has not been used, if one comes within
`tries` numbers. -/
def search (s : NameSupply) (base : String) : Nat → Nat → Nat
  | 0, i => i
  | tries + 1, i =>
    if s.used.contains (name base (s.source.number i)) then s.search base tries (i + 1) else i

theorem le_search (s : NameSupply) (base : String) (tries i : Nat) : i ≤ s.search base tries i := by
  induction tries generalizing i with
  | zero => exact Nat.le_refl i
  | succ tries ih =>
    rw [search]
    split
    · exact Nat.le_of_succ_le (ih (i + 1))
    · exact Nat.le_refl i

/-- Takes numbers up to the one at a place, and uses the name that is made with it. -/
def take (s : NameSupply) (base : String) (i : Nat) (h : s.taken ≤ i) : String × NameSupply :=
  let sym := name base (s.source.number i)
  (sym, ⟨s.source, i + 1, sym :: s.used, by
    intro t ht
    rcases List.mem_cons.mp ht with rfl | ht
    · exact ⟨base, i, Nat.lt_succ_self i, rfl⟩
    · obtain ⟨b, k, hk, rfl⟩ := s.used_taken t ht
      exact ⟨b, k, by omega, rfl⟩⟩)

/-- A fresh name: numbers are taken until the name has not been used. At the latest that is so when
a new number comes. -/
def fresh (s : NameSupply) (base : Value) : String × NameSupply :=
  let base := if base.isTruthy then base.display else "gensym"
  s.take base (s.search base (s.source.renewal s.taken - s.taken) s.taken) (s.le_search base _ _)

end NameSupply

end TreeMacros
