import TreeMacros.Error
import TreeMacros.Text.Lines

/-!
# Decoding source files

A source file is in the encoding that a byte order mark or a comment in one of its first two lines
says, else in UTF-8. Line ends become line feeds.
-/

namespace TreeMacros.Text

inductive Encoding where
  | utf8 | latin1 | ascii
  deriving DecidableEq, Repr

def byteOrderMark : List UInt8 := [0xef, 0xbb, 0xbf]

def decodeUtf8? (bs : List UInt8) : Option String := String.fromUTF8? ⟨bs.toArray⟩

namespace Encoding

def key (name : String) : String :=
  String.ofList ((name.toList.map Char.toLower).filter Char.isAlphanum)

def ofName? (name : String) : Option Encoding :=
  let k := key name
  if ["utf8", "u8", "utf", "utf8ucs2", "utf8ucs4", "cp65001", "utf8sig"].contains k then some utf8
  else if ["latin1", "latin", "l1", "iso88591", "iso885911987", "8859", "cp819", "isoir100",
      "isolatin1"].contains k then some latin1
  else if ["ascii", "usascii", "646", "ansix341968", "ansix341986", "isoir6", "us", "ibm367",
      "cp367", "iso646us"].contains k then some ascii
  else none

def decode? (e : Encoding) (bs : List UInt8) : Option String :=
  match e with
  | utf8 => decodeUtf8? bs
  | latin1 => some (String.ofList (bs.map fun b => Char.ofNat b.toNat))
  | ascii =>
    if bs.all (·.toNat < 128) then some (String.ofList (bs.map fun b => Char.ofNat b.toNat))
    else none

end Encoding

def firstLine (bs : List UInt8) : List UInt8 × List UInt8 :=
  let line := bs.takeWhile (· != 10)
  match bs.drop line.length with
  | [] => (line, [])
  | e :: rest => (line ++ [e], rest)

def isEncodingChar (c : Char) : Bool := c.isAlphanum || c == '_' || c == '-' || c == '.'

/-- The name that follows `coding` and a colon or an equals sign, at the first place where one
does. -/
def codingName? : List Char → Option String
  | [] => none
  | c :: rest =>
    let here := match c :: rest with
      | 'c' :: 'o' :: 'd' :: 'i' :: 'n' :: 'g' :: sep :: tail =>
        if sep == ':' || sep == '=' then
          let name := (tail.dropWhile fun c => c == ' ' || c == '\t').takeWhile isEncodingChar
          if name.isEmpty then none else some (String.ofList name)
        else none
      | _ => none
    match here with
    | some n => some n
    | none => if c == '\n' then none else codingName? rest

def declared? (line : String) : Option String :=
  match line.toList.dropWhile fun c => c == ' ' || c == '\t' || c == '\x0c' with
  | '#' :: rest => codingName? rest
  | _ => none

def isBlankOrComment (line : List UInt8) : Bool :=
  match line.dropWhile fun b => b == 32 || b == 9 || b == 12 with
  | [] => true
  | b :: _ => b == 35 || b == 13 || b == 10

/-- Whether a declared name is that of UTF-8 proper, up to case and underscores. -/
def isPlainUtf8 (name : String) : Bool :=
  let n := String.ofList (((name.toList.take 12).map Char.toLower).map fun c => if c == '_' then '-' else c)
  n == "utf-8" || n.startsWith "utf-8-"

def declaredEncoding (marked : Bool) (line : List UInt8) : Except Error (Option Encoding) :=
  match decodeUtf8? line with
  | none => .error (.fault (.badSource .badSyntax))
  | some text =>
    match declared? text with
    | none => .ok none
    | some name =>
      match Encoding.ofName? name with
      | none => .error (.fault (.badSource .badSyntax))
      | some e =>
        if marked && !isPlainUtf8 name then .error (.fault (.badSource .badSyntax))
        else .ok (some (if isPlainUtf8 name then .utf8 else e))

def encodingOf (marked : Bool) (bs : List UInt8) : Except Error Encoding := do
  let (first, rest) := firstLine bs
  if first.isEmpty then return .utf8
  match ← declaredEncoding marked first with
  | some e => return e
  | none =>
    if !isBlankOrComment first then return .utf8
    let (second, _) := firstLine rest
    if second.isEmpty then return .utf8
    return (← declaredEncoding marked second).getD .utf8

def unifyLineEnds : List Char → List Char
  | '\r' :: '\n' :: rest => '\n' :: unifyLineEnds rest
  | '\r' :: rest => '\n' :: unifyLineEnds rest
  | c :: rest => c :: unifyLineEnds rest
  | [] => []

def decodeSource (bs : List UInt8) : Except Error String := do
  let marked := bs.take 3 == byteOrderMark
  let bs := if marked then bs.drop 3 else bs
  let encoding ← encodingOf marked bs
  match encoding.decode? bs with
  | some text => return String.ofList (unifyLineEnds text.toList)
  | none => .error (.fault .undecodable)

end TreeMacros.Text
