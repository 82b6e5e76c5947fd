import TreeMacros.Text.Quoted

/-!
# Finding dialect imports in a text

The text of a module in a dialect cannot be parsed, so that dialect imports are found by their
looks: at the start of a line, `from`, a name, and `import dialects,` with blanks in between, then
whatever follows, up to the last line end before the first opening parenthesis or backslash, or to
the end of the text if there is neither.
-/

namespace TreeMacros.Dialect

/-- The characters of a module name; those between the upper and the lower case letters count. -/
def isModuleChar (c : Char) : Bool :=
  c == '.' || ('0' ≤ c && c ≤ '9') || ('A' ≤ c && c ≤ 'z')

def dropWord (word : String) (cs : List Char) : Option (List Char) :=
  if word.toList.isPrefixOf cs then some (cs.drop word.length) else none

def dropSome (p : Char → Bool) (cs : List Char) : Option (List Char) :=
  match cs with
  | c :: _ => if p c then some (cs.dropWhile p) else none
  | [] => none

/-- What precedes the last line end that has at least two characters before it. -/
def upToLastLineEnd (cs : List Char) : Option (List Char) :=
  match (cs.reverse.dropWhile (· != '\n')) with
  | _ :: before => if 2 ≤ before.length then some before.reverse else none
  | [] => none

/-- The part of the text after `import dialects,` that belongs to the statement. -/
def namesPart (cs : List Char) : Option (List Char) :=
  let region := cs.takeWhile fun c => c != '(' && c != '\\'
  match region with
  | c :: _ :: _ =>
    if !Text.isBlank c then none
    else if region.length == cs.length then some region
    else upToLastLineEnd region
  | _ => none

/-- The length of the dialect import at the start of a text, if there is one. -/
def importLength? (cs : List Char) : Option Nat := do
  let rest ← dropWord "from" cs
  let rest ← dropSome Text.isBlank rest
  let rest ← dropSome isModuleChar rest
  let rest ← dropSome Text.isBlank rest
  let rest ← dropWord "import dialects," rest
  let names ← namesPart rest
  return cs.length - rest.length + names.length

/-- The dialect imports in a text. `lineStart` says whether the text starts a line, and `skip` how
many characters still belong to the import found last. -/
def scan (lineStart : Bool) (skip : Nat) : List Char → List String
  | [] => []
  | c :: rest =>
    match skip with
    | n + 1 => scan (c == '\n') n rest
    | 0 =>
      match if lineStart then importLength? (c :: rest) else none with
      | some n =>
        Text.strip (String.ofList ((c :: rest).take n)) :: scan (c == '\n') (n - 1) rest
      | none => scan (c == '\n') 0 rest

def importsIn (text : String) : List String := scan true 0 text.toList

end TreeMacros.Dialect
