import TreeMacros.Text.Quoted

/-!
# Describing things at the console

Where a thing is defined, its documentation, and its source text.
-/

namespace TreeMacros.Console

/-- Puts blanks in the place of tabs: as many as lead to the next multiple of eight. -/
def expandTabs (column : Nat) : List Char → List Char
  | [] => []
  | c :: rest =>
    if c == '\t' then
      let n := 8 - column % 8
      List.replicate n ' ' ++ expandTabs (column + n) rest
    else if c == '\n' || c == '\r' then c :: expandTabs 0 rest
    else c :: expandTabs (column + 1) rest

/-- The number of blanks before the text of a line, unless it is blank. -/
def indentation? (line : String) : Option Nat :=
  let content := (Text.stripStart line).length
  if content == 0 then none else some (line.length - content)

/-- Removes the indentation that all lines but the first have in common, and blank lines at both
ends. -/
def cleanIndentation (doc : String) : String :=
  match (String.ofList (expandTabs 0 doc.toList)).splitOn "\n" with
  | [] => ""
  | first :: rest =>
    let margin := ((rest.filterMap indentation?).min?).getD 0
    let lines := Text.stripStart first :: rest.map fun l => String.ofList (l.toList.drop margin)
    let lines := (lines.reverse.dropWhile String.isEmpty).reverse.dropWhile String.isEmpty
    "\n".intercalate lines

/-- Where a thing is defined: its file, if there is one, and its lines. -/
structure Definition where
  file : Option String
  firstLine : Int
  lines : List String
  deriving Repr, Inhabited

def Definition.heading (d : Definition) : String :=
  d.file.getD "None" ++ ":" ++ toString d.firstLine ++ "\n"

/-- The documentation of a thing, after the place where it is defined. -/
def documentation (definition : Option Definition) (doc : Option String) : String :=
  let heading := (definition.map Definition.heading).getD ""
  match doc with
  | none => heading ++ "<no docstring>\n"
  | some d =>
    heading ++ (if d.isEmpty then "<no docstring>" else cleanIndentation d) ++ "\n"

def dropLineEnds (line : String) : String :=
  String.ofList (line.toList.reverse.dropWhile (· == '\n')).reverse

/-- The source text of a thing, after the place where it is defined. -/
def sourceText (definition : Option Definition) : String :=
  match definition with
  | none => "<no source code available>\n"
  | some d => d.heading ++ String.join (d.lines.map fun l => dropLineEnds l ++ "\n")

end TreeMacros.Console
