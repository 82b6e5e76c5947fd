import TreeMacros.Text.Quoted

/-!
# Counting lines

The number of lines of a source text, with or without blank lines, long strings and comments.
-/

namespace TreeMacros.Tally

/-- What is counted. -/
structure Counted where
  blanks : Bool
  docstrings : Bool
  comments : Bool
  deriving DecidableEq, Repr

namespace Counted

def code : Counted := ⟨false, false, false⟩

def all : Counted := ⟨true, true, true⟩

end Counted

/-- Whether three quotes are still to come. -/
def closes (quote : Char) : List Char → Bool
  | a :: b :: c :: rest =>
    a == quote && b == quote && c == quote || closes quote (b :: c :: rest)
  | _ => false

/-- Removes the strings between triple quotes; `inside` says whether one is open. Quotes that nothing
closes stay. -/
def removeStrings (quote : Char) (inside : Bool) : List Char → List Char
  | a :: b :: c :: rest =>
    if a == quote && b == quote && c == quote && (inside || closes quote rest) then
      removeStrings quote (!inside) rest
    else if inside then removeStrings quote inside (b :: c :: rest)
    else a :: removeStrings quote inside (b :: c :: rest)
  | cs => if inside then [] else cs

def removeDocstrings (cs : List Char) : List Char :=
  removeStrings Text.apostrophe false (removeStrings '"' false cs)

def Counted.line (c : Counted) (line : List Char) : Bool :=
  match line.dropWhile Text.isBlank with
  | [] => c.blanks
  | '#' :: _ => c.comments
  | _ => true

def countLines (c : Counted) (code : String) : Nat :=
  let code := if c.docstrings then code.toList else removeDocstrings code.toList
  (code.splitOn '\n').countP c.line

end TreeMacros.Tally
