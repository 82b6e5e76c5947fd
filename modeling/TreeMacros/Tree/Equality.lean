import TreeMacros.Tree.Value

/-!
# Equality of values

Numbers are equal if their values are, whatever their types; containers are compared element by
element, and the order of dictionaries and sets does not matter. A node equals only itself, and
two nodes that were built separately are two nodes.
-/

namespace TreeMacros.Value

/-- A decimal number as digits and a power of ten, without trailing zeros. -/
structure Decimal where
  digits : Int
  exponent : Int
  deriving DecidableEq, Repr

namespace Decimal

/-- Moves trailing zeros into the exponent; at most `fuel` of them. -/
def trim : Nat → Decimal → Decimal
  | 0, d => d
  | fuel + 1, d =>
    if d.digits != 0 && d.digits % 10 == 0 then trim fuel ⟨d.digits / 10, d.exponent + 1⟩ else d

def normal (d : Decimal) : Decimal :=
  if d.digits == 0 then ⟨0, 0⟩ else trim (d.digits.natAbs + 1).log2 d

def ofInt (n : Int) : Decimal := normal ⟨n, 0⟩

def natOfDigits (cs : List Char) : Nat := cs.foldl (fun n c => 10 * n + (c.toNat - 48)) 0

/-- Reads a written number; `none` for infinities and what is no number. -/
def read? (written : String) : Option Decimal :=
  let (negative, cs) := match written.toList with
    | '-' :: cs => (true, cs)
    | cs => (false, cs)
  let mantissa := cs.takeWhile (· != 'e')
  let whole := mantissa.takeWhile (· != '.')
  let fraction := (mantissa.dropWhile (· != '.')).drop 1
  let exponent : Int := match (cs.dropWhile (· != 'e')).drop 1 with
    | '-' :: ds => -(natOfDigits ds : Int)
    | '+' :: ds => natOfDigits ds
    | ds => natOfDigits ds
  if !(whole ++ fraction).isEmpty && (whole ++ fraction).all Char.isDigit then
    let n : Int := natOfDigits (whole ++ fraction)
    some (normal ⟨if negative then -n else n, exponent - fraction.length⟩)
  else Option.none

end Decimal

/-- The integer that a whole number or truth value stands for. -/
def toInt? : Value → Option Int
  | int n => some n
  | bool b => some (if b then 1 else 0)
  | _ => Option.none

def decimal? : Value → Option Decimal
  | bool b => some (Decimal.ofInt (if b then 1 else 0))
  | int n => some (Decimal.ofInt n)
  | float w => Decimal.read? w
  | _ => Option.none

def sameNumber (a b : Value) : Bool :=
  match a, b with
  | float "inf", float "inf" => true
  | float "-inf", float "-inf" => true
  | _, _ =>
    match a.decimal?, b.decimal? with
    | some x, some y => x == y
    | _, _ => false

mutual

/-- Equality of values. -/
def same : Value → Value → Bool
  | none, none => true
  | str s, str t => s == t
  | bytes s, bytes t => s == t
  | ellipsis, ellipsis => true
  | notImplemented, notImplemented => true
  | complex s, complex t => s == t && !s.toList.contains 'n'
  | type s, type t => s == t
  | function s, function t => s == t
  | list xs, list ys => sameAll xs ys
  | tuple xs, tuple ys => sameAll xs ys
  | set xs, set ys => xs.length == ys.length && sameIn xs ys
  | set xs, frozenset ys => xs.length == ys.length && sameIn xs ys
  | frozenset xs, set ys => xs.length == ys.length && sameIn xs ys
  | frozenset xs, frozenset ys => xs.length == ys.length && sameIn xs ys
  | dict es, dict fs => es.length == fs.length && sameEntries es fs
  | a, b => sameNumber a b

def sameAll : List Value → List Value → Bool
  | [], [] => true
  | x :: xs, y :: ys => same x y && sameAll xs ys
  | _, _ => false

def sameIn : List Value → List Value → Bool
  | [], _ => true
  | x :: xs, ys => ys.any (fun y => same x y) && sameIn xs ys

def sameEntries : List (Value × Value) → List (Value × Value) → Bool
  | [], _ => true
  | (k, v) :: es, fs => fs.any (fun (l, w) => same k l && same v w) && sameEntries es fs

end

theorem eq_str_of_same {v : Value} {s : String} (h : v.same (str s) = true) : v = str s := by
  cases v with
  | str t =>
    have hts : t = s := by simpa [same] using h
    rw [hts]
  | _ => simp [same, sameNumber, decimal?] at h

/-- Values that can be keys: everything but the containers that can change. -/
def isHashable : Value → Bool
  | list _ | set _ | dict _ => false
  | tuple xs => hashables xs
  | _ => true
where
  hashables : List Value → Bool
    | [] => true
    | x :: xs => isHashable x && hashables xs

end TreeMacros.Value
