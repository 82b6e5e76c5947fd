import TreeMacros.Text.Printable

/-!
# Lines of text

Splitting a text into lines at every line boundary, and indenting it.
-/

namespace TreeMacros.Text

def isLineEnd (c : Char) : Bool :=
  let n := c.toNat
  (0xa ≤ n && n ≤ 0xd) || (0x1c ≤ n && n ≤ 0x1e) || n == 0x85 || n == 0x2028 || n == 0x2029

/-- Splits after each line boundary; `line` is the part of the current line that has been read, in
reverse. A carriage return and a line feed together end one line. -/
def splitLines (line : List Char) : List Char → List (List Char)
  | [] => if line.isEmpty then [] else [line.reverse]
  | '\r' :: '\n' :: rest => ('\n' :: '\r' :: line).reverse :: splitLines [] rest
  | c :: rest =>
    if isLineEnd c then (c :: line).reverse :: splitLines [] rest
    else splitLines (c :: line) rest

def lines (s : String) : List String := (splitLines [] s.toList).map String.ofList

/-- The parts of a text between the occurrences of a character. -/
def partsAt (c : Char) (s : String) : List String := (s.toList.splitOn c).map String.ofList

def indent (columns : Nat) (s : String) : String :=
  String.join ((lines s).map fun line =>
    if line.toList.all isBlank then line
    else String.ofList (List.replicate columns ' ') ++ line)

end TreeMacros.Text
