import TreeMacros.Tree.Equality

/-!
# Nesting levels

A stack of levels, none of them negative. A level is entered for the extent of a section of code
and left when the section ends.
-/

namespace TreeMacros

namespace Value

def Decimal.written (d : Decimal) : String :=
  let digits := toString d.digits.natAbs
  let text :=
    if 0 ≤ d.exponent then digits ++ String.ofList (List.replicate d.exponent.toNat '0') ++ ".0"
    else
      let places := (-d.exponent).toNat
      let padded := String.ofList (List.replicate (places + 1 - digits.length) '0') ++ digits
      let whole := padded.length - places
      String.ofList (padded.toList.take whole) ++ "." ++ String.ofList (padded.toList.drop whole)
  if d.digits < 0 then "-" ++ text else text

def Decimal.add (a b : Decimal) : Decimal :=
  let e := min a.exponent b.exponent
  Decimal.normal
    ⟨a.digits * Int.pow 10 (a.exponent - e).toNat + b.digits * Int.pow 10 (b.exponent - e).toNat, e⟩

/-- The sum of two numbers, one of which is infinite or undefined. -/
def plusEndless (a b : String) : String :=
  if a == "nan" || b == "nan" then "nan"
  else if a == "inf" || a == "-inf" then if (b == "inf" || b == "-inf") && a != b then "nan" else a
  else b

def isEndless : Value → Bool
  | float w => w == "inf" || w == "-inf" || w == "nan"
  | _ => false

def isReal (v : Value) : Bool := v.isEndless || v.decimal?.isSome

def plus (a b : Value) : Except Error Value :=
  match a.toInt?, b.toInt? with
  | some x, some y => .ok (int (x + y))
  | _, _ =>
    match a, b with
    | str s, str t => .ok (str (s ++ t))
    | list xs, list ys => .ok (list (xs ++ ys))
    | tuple xs, tuple ys => .ok (tuple (xs ++ ys))
    | bytes xs, bytes ys => .ok (bytes (xs ++ ys))
    | _, _ =>
      if (a.isEndless && b.isReal) || (a.isReal && b.isEndless) then
        .ok (float (plusEndless a.display b.display))
      else
      match a.decimal?, b.decimal? with
      | some x, some y => .ok (float (x.add y).written)
      | _, _ => .error (.fault (.wrongCall
          s!"unsupported operand type(s) for +: '{a.typeName}' and '{b.typeName}'"))

end Value

/-- The levels that have been entered, the current one first, on top of a starting level. -/
structure Levels where
  start : Value
  entered : List Value
  deriving Repr, Inhabited

namespace Levels

def ofStart (start : Value) : Levels := ⟨start, []⟩

def current (l : Levels) : Value := l.entered.head?.getD l.start

def toList (l : Levels) : List Value := l.start :: l.entered.reverse

def setTo (l : Levels) (level : Value) : Except Error Levels :=
  match level.toInt? with
  | none => .error (.report (.levelType level.className level.repr) none)
  | some n =>
    if n < 0 then .error (.report (.levelRange level.repr) none)
    else .ok { l with entered := level :: l.entered }

/-- Enters the level that differs from the current one by `delta`. -/
def changedBy (l : Levels) (delta : Value) : Except Error Levels := do
  l.setTo (← l.current.plus delta)

def leave (l : Levels) : Except Error Levels :=
  match l.entered with
  | [] => .error (.fault (.noIndex "list"))
  | _ :: rest => .ok { l with entered := rest }

end Levels

end TreeMacros
