import TreeMacros.Action
import TreeMacros.Tally.Count
import TreeMacros.Tally.Percent
import TreeMacros.Text.Encoding

/-!
# Reporting the size of a project

Directory by directory, the lines of code in each source file and all of its lines.
-/

namespace TreeMacros.Tally

/-- A file: the directories down to it, its name, and what it holds. -/
structure File where
  directory : List String
  name : String
  text : String
  deriving Repr, Inhabited

namespace File

def ofPath (path text : String) : File :=
  match (path.splitOn "/").reverse with
  | name :: dirs => ⟨dirs.reverse, name, text⟩
  | [] => ⟨[], path, text⟩

end File

/-- Directories that are passed over. -/
def ignored : List String := [".git", "build", "dist", "__pycache__", "00_stuff"]

def pathText (dir : List String) : String := "/".intercalate ("." :: dir)

def ancestors (dir : List String) : List (List String) :=
  (List.range (dir.length + 1)).map dir.take

def sortTexts (xs : List String) : List String := xs.mergeSort fun a b => a ≤ b

def directories (files : List File) : List (List String) :=
  let dirs := ([] :: files.flatMap fun f => ancestors f.directory).eraseDups
  let dirs := dirs.filter fun d => !d.any ignored.contains
  dirs.mergeSort fun a b => pathText a ≤ pathText b

def isSourceName (name : String) : Bool := name.endsWith ".py"

/-- The lines of code, and all lines. -/
structure Size where
  code : Nat
  lines : Nat
  deriving DecidableEq, Repr

namespace Size

def ofText (text : String) : Size :=
  let text := String.ofList (Text.unifyLineEnds text.toList)
  ⟨countLines .code text, countLines .all text⟩

def add (a b : Size) : Size := ⟨a.code + b.code, a.lines + b.lines⟩

def sum (sizes : List Size) : Size := sizes.foldl add ⟨0, 0⟩

/-- By lines of code first. -/
def le (a b : Size) : Bool := a.code < b.code || (a.code == b.code && a.lines ≤ b.lines)

end Size

def padRight (width : Nat) (s : String) : String :=
  s ++ String.ofList (List.replicate (width - s.length) ' ')

def padLeft (width : Nat) (s : String) : String :=
  String.ofList (List.replicate (width - s.length) ' ') ++ s

def row (name : String) (s : Size) : String :=
  name ++ padLeft 5 (toString s.code) ++ " / " ++ padLeft 5 (toString s.lines) ++ "  " ++
    toString (percent s.code s.lines) ++ "% code\n"

/-- The sizes of the source files in a directory, by name. -/
def sizes (files : List File) (dir : List String) : Except Error (List (String × Size)) := do
  let here := files.filter (·.directory == dir)
  let below := (files.filterMap fun f =>
    if f.directory.take dir.length == dir then f.directory[dir.length]? else none).eraseDups
  let names := (sortTexts (here.map File.name ++ below)).filter isSourceName
  names.mapM fun name =>
    match here.find? (·.name == name) with
    | some f => .ok (name, Size.ofText f.text)
    | none => .error (.fault (.directory (pathText (dir ++ [name]))))

def label (dir : List String) : String := if dir.isEmpty then "top level" else "/".intercalate dir

def reportDirectory (files : List File) (dir : List String) : Act String Size := do
  let found ← sizes files dir
  if found.isEmpty then return ⟨0, 0⟩
  let total := Size.sum (found.map (·.2))
  let rows := (found.mergeSort fun a b => a.2.le b.2).map fun (name, s) =>
    row ("    " ++ padRight 25 name ++ " ") s
  modify (· ++ "\n" ++ row ("  " ++ padRight 25 (label dir) ++ "   ") total ++ String.join rows)
  return total

def report (root : String) (files : List File) : Act String Unit := do
  modify (· ++ "Code size for " ++ root ++ "\n")
  let totals ← (directories files).mapM (reportDirectory files)
  let total := Size.sum totals
  if total.lines == 0 then throw (.fault .divisionByZero)
  modify (· ++ "\n" ++ row (padRight 25 "Total" ++ "     ") total)

end TreeMacros.Tally
