import TreeMacros.Error
import TreeMacros.Text.Lines

/-!
# File names and the search path

File names are resolved lexically. The modules of a package are found below an entry of the search
path, and the name of the package follows from the path below that entry.
-/

namespace TreeMacros

/-- An absolute path without detours. -/
structure Path where
  parts : List String
  deriving DecidableEq, Repr, Inhabited

namespace Path

def text (p : Path) : String := "/" ++ "/".intercalate p.parts

def parent (p : Path) : Path := ⟨p.parts.dropLast⟩

def follow (p : Path) (parts : List String) : Path :=
  parts.foldl (fun p part => if part == ".." then p.parent else ⟨p.parts ++ [part]⟩) p

/-- The parts of a file name; empty ones and those that stay in place do not count. -/
def split (s : String) : List String :=
  (Text.partsAt '/' s).filter fun part => part != "" && part != "."

end Path

/-- Where relative file names start, the home directory, and the search path. -/
structure Places where
  current : Path
  home : Path
  search : List String
  deriving Repr, Inhabited

namespace Places

def resolve (places : Places) (name : String) : Except Error Path :=
  let parts := Path.split name
  if name.startsWith "/" then .ok (Path.follow ⟨[]⟩ parts)
  else
    match parts with
    | first :: rest =>
      if first == "~" then .ok (places.home.follow rest)
      else if first.startsWith "~" then
        .error (.fault (.outside .runtimeError "Could not determine home directory."))
      else .ok (places.current.follow parts)
    | [] => .ok places.current

/-- A remark on what a file name was resolved to, unless that is the name itself. -/
def remark (name resolved : String) : String :=
  if resolved == name then "" else s!" (resolved to {resolved})"

/-- The first entry whose path is how the text of the given one starts. -/
def firstMatch (places : Places) (text : String) : List String → Except Error (Option Path)
  | [] => .ok none
  | entry :: rest => do
    let root ← places.resolve entry
    if text.startsWith root.text then return some root else places.firstMatch text rest

def matching (places : Places) (name : String) : Except Error Path := do
  let text := (← places.resolve name).text
  match ← places.firstMatch text places.search with
  | some root => return root
  | none => .error (.report (.notInSearchPath name (remark name text)) none)

/-- The entry of the search path for a file, and the path of the file below it. -/
def relative (places : Places) (name : String) : Except Error (Path × String) := do
  let text := (← places.resolve name).text
  let root ← places.matching text
  let below := text.toList.drop root.text.length
  let below := match below with
    | '/' :: rest => rest
    | rest => rest
  return (root, String.ofList below)

def packageName (places : Places) (name : String) : Except Error String := do
  let path ← places.resolve name
  let (root, below) ← places.relative path.parent.text
  if below.isEmpty then
    .error (.report (.atSearchRoot name (remark name path.text) root.text) none)
  else return ".".intercalate (Text.partsAt '/' below)

end Places

end TreeMacros
