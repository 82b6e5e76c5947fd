import TreeMacros.Text.Printable

/-!
# Quoted text

Literals for strings and byte strings. The quote is an apostrophe unless the text holds
apostrophes and no double quote; what is not printable is escaped.
-/

namespace TreeMacros.Text

def apostrophe : Char := Char.ofNat 39

/-- `n` in lower-case hexadecimal with at least `width` digits. -/
def hex (width n : Nat) : String :=
  let digits := Nat.toDigits 16 n
  String.ofList (List.replicate (width - digits.length) '0' ++ digits)

/-- The quote for a text: apostrophes are preferred. -/
def quoteFor (holds : Char → Bool) : Char :=
  if holds apostrophe && !holds '"' then '"' else apostrophe

def escapeChar (quote c : Char) : String :=
  if c == quote || c == '\\' then "\\" ++ c.toString
  else if c == '\n' then "\\n"
  else if c == '\r' then "\\r"
  else if c == '\t' then "\\t"
  else if isPrintable c then c.toString
  else if c.toNat ≤ 0xff then "\\x" ++ hex 2 c.toNat
  else if c.toNat ≤ 0xffff then "\\u" ++ hex 4 c.toNat
  else "\\U" ++ hex 8 c.toNat

def quoted (s : String) : String :=
  let q := quoteFor (s.toList.contains ·)
  q.toString ++ String.join (s.toList.map (escapeChar q)) ++ q.toString

def escapeByte (quote : Char) (b : UInt8) : String :=
  let c := Char.ofNat b.toNat
  if b.toNat ≥ 0x7f then "\\x" ++ hex 2 b.toNat else escapeChar quote c

def quotedBytes (bs : List UInt8) : String :=
  let q := quoteFor fun c => bs.any (·.toNat == c.toNat)
  "b" ++ q.toString ++ String.join (bs.map (escapeByte q)) ++ q.toString

def strip (s : String) : String :=
  String.ofList ((s.toList.dropWhile isBlank).reverse.dropWhile isBlank).reverse

def stripStart (s : String) : String :=
  String.ofList (s.toList.dropWhile isBlank)

end TreeMacros.Text
