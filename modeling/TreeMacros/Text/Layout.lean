import TreeMacros.Error
import TreeMacros.Text.Quoted

/-!
# The layout of source text

Source text is a sequence of logical lines with indentations; a line that opens a block is followed
by a deeper one. From the layout of a text that does not parse follows in which way it is wrong.
-/

namespace TreeMacros.Text.Layout

/-- A logical line. Tabs count up to the next multiple of eight in `column`, and as one in
`narrow`. -/
structure Line where
  column : Nat
  narrow : Nat
  /-- The characters of the line without blanks, comments and the contents of strings, last
  first. -/
  content : List Char
  /-- The first word of the line, last character first. -/
  word : List Char
  /-- Whether the first word may go on. -/
  inWord : Bool
  deriving Repr, Inhabited

namespace Line

def start (column narrow : Nat) : Line := ⟨column, narrow, [], [], true⟩

def add (l : Line) (c : Char) : Line :=
  if isBlank c then { l with inWord := l.inWord && l.content.isEmpty }
  else
    let more := l.inWord && (c.isAlphanum || c == '_')
    { l with content := c :: l.content, word := if more then c :: l.word else l.word, inWord := more }

def openers : List String :=
  ["if", "elif", "else", "for", "while", "with", "def", "class", "try", "except", "finally",
   "async", "match", "case"]

def opensBlock (l : Line) : Bool :=
  l.content.head? == some ':' && openers.contains (String.ofList l.word.reverse)

end Line

/-- Where a text is being read. -/
inductive Place where
  /-- Before the first character of a line that is not a blank. -/
  | margin (column narrow : Nat)
  | code (line : Line) (depth : Nat)
  /-- In a comment, on a line of its own or not. -/
  | comment (line : Option (Line × Nat))
  | string (line : Line) (depth : Nat) (quote : Char) (long : Bool)

/-- The logical lines of a text, as far as strings and brackets can be made sense of. The flag says
whether that is all of it. -/
def read : Place → List Char → List Line × Bool
  | .margin _ _, [] => ([], true)
  | .comment none, [] => ([], true)
  | .code line 0, [] | .comment (some (line, 0)), [] => ([line], true)
  | .code _ _, [] | .comment (some _), [] => ([], false)
  | .string .., [] => ([], false)
  | .margin column narrow, c :: rest =>
    match c with
    | ' ' => read (.margin (column + 1) (narrow + 1)) rest
    | '\t' => read (.margin ((column / 8 + 1) * 8) (narrow + 1)) rest
    | '\x0c' => read (.margin 0 0) rest
    | '\n' => read (.margin 0 0) rest
    | '#' => read (.comment none) rest
    | c => step (Line.start column narrow) 0 c rest
  | .comment line, c :: rest =>
    if c == '\n' then
      match line with
      | none => read (.margin 0 0) rest
      | some (line, 0) =>
        let (lines, whole) := read (.margin 0 0) rest
        (line :: lines, whole)
      | some (line, depth) => read (.code line depth) rest
    else read (.comment line) rest
  | .code line depth, c :: rest => step line depth c rest
  | .string line depth quote long, c :: rest =>
    if c == '\\' then
      match rest with
      | _ :: rest => read (.string line depth quote long) rest
      | [] => ([], false)
    else if c == '\n' && !long then ([], false)
    else if c != quote then read (.string line depth quote long) rest
    else if !long then read (.code line depth) rest
    else
      match rest with
      | a :: b :: rest =>
        if a == quote && b == quote then read (.code line depth) rest
        else read (.string line depth quote long) (a :: b :: rest)
      | rest => read (.string line depth quote long) rest
termination_by _ cs => 2 * cs.length
where
  /-- Reads one character of code. -/
  step (line : Line) (depth : Nat) (c : Char) (rest : List Char) : List Line × Bool :=
    match c with
    | '\n' =>
      match depth with
      | 0 =>
        let (lines, whole) := read (.margin 0 0) rest
        (line :: lines, whole)
      | depth => read (.code line depth) rest
    | '#' => read (.comment (some (line, depth))) rest
    | '\\' =>
      match rest with
      | '\n' :: rest => read (.code line depth) rest
      | rest => read (.code (line.add '\\') depth) rest
    | '(' | '[' | '\x7b' => read (.code (line.add c) (depth + 1)) rest
    | ')' | ']' | '\x7d' =>
      match depth with
      | 0 => ([], false)
      | depth + 1 => read (.code (line.add c) depth) rest
    | c =>
      if c == '"' || c == apostrophe then
        match rest with
        | a :: b :: more =>
          if a == c && b == c then read (.string (line.add c) depth c true) more
          else read (.string (line.add c) depth c false) (a :: b :: more)
        | rest => read (.string (line.add c) depth c false) rest
      else read (.code (line.add c) depth) rest
  termination_by 2 * rest.length + 1

/-- The indentations that are open after a line, innermost first, or what is wrong with that of the
line; `opened` says whether the line before it opens a block. -/
def place (levels : List (Nat × Nat)) (opened : Bool) (l : Line) :
    Except ErrorKind (List (Nat × Nat)) :=
  let (column, narrow) := levels.headD (0, 0)
  if column < l.column then
    if l.narrow ≤ narrow then .error .badTabs
    else if opened then .ok ((l.column, l.narrow) :: levels)
    else .error .badIndentation
  else
    let levels := levels.dropWhile fun level => l.column < level.1
    let (column, narrow) := levels.headD (0, 0)
    if l.column != column then .error .badIndentation
    else if l.narrow != narrow then .error .badTabs
    else if opened then .error .badIndentation
    else .ok levels

/-- In which way a sequence of lines is wrong; `whole` says whether they are all there are. -/
def check (levels : List (Nat × Nat)) (opened whole : Bool) : List Line → ErrorKind
  | [] => if opened && whole then .badIndentation else .badSyntax
  | l :: rest =>
    match place levels opened l with
    | .ok levels => check levels l.opensBlock whole rest
    | .error kind => kind

/-- In which way a text is wrong that does not parse: in its indentation, if nothing else is wrong
before, or else in its grammar. -/
def failure (text : String) : ErrorKind :=
  if text.toList.contains '\x00' then .badSyntax
  else
    let (lines, whole) := read (.margin 0 0) text.toList
    check [] false whole lines

end TreeMacros.Text.Layout
