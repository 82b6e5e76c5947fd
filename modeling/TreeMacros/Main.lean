import TreeMacros.Console.Line
import TreeMacros.Launch.Command

/-!
# The command line

Says which program a command line runs, and where its modules are looked for first, or holds a
console session at the terminal.
-/

open TreeMacros

namespace TreeMacros.Terminal

/-- The directories around the command, and the file it names if there is one. -/
def surroundings (args : List String) : IO Launch.Surroundings := do
  let current := (← IO.currentDir).toString
  let home := (← IO.getEnv "HOME").getD "/"
  let places : Places := ⟨⟨Path.split current⟩, ⟨Path.split home⟩, [current]⟩
  let files ← args.filterMapM fun name => do
    match places.resolve name with
    | .error _ => return none
    | .ok path =>
      try
        let _ ← IO.FS.readFile path.text
        return some path
      catch _ => return none
  return ⟨places, files⟩

def showEvent : Console.Event → IO Unit
  | .prompt text | .write text => IO.print text
  | .greet => return ()
  | .run tree => IO.println (tree.sourceOrExplain false)
  | .showError e => IO.eprintln (e.kind.name ++ ": " ++ e.text)

def flush (c : Console.Line) : IO Console.Line := do
  c.events.forM showEvent
  return { c with events := [] }

partial def session (c : Console.Line) (buffer : List String) : IO Unit := do
  IO.print (if buffer.isEmpty then ">>> " else "... ")
  let line ← (← IO.getStdin).getLine
  if line.isEmpty then return
  let buffer := buffer ++ [Console.Line.dropEnd 1 line]
  let (r, c) := (Console.Line.submit ("\n".intercalate buffer)).runOn c
  let c ← flush c
  match r with
  | .ok more => session c (if more then buffer else [])
  | .error e => IO.eprintln (e.kind.name ++ ": " ++ e.text)

end TreeMacros.Terminal

open Terminal in
def main (args : List String) : IO UInt32 := do
  let s ← surroundings args
  let (r, e) := (Launch.command s args).runOn (Launch.start s)
  match r with
  | .ok (.exit status printed) =>
    if status == 0 then IO.print printed else IO.eprint Launch.usageText
    return UInt32.ofNat status
  | .ok .console =>
    Console.Line.greeting.forM (IO.print ·)
    session (Console.Line.start (World.start (NameSupply.ofQueue [])) Console.Line.defaultFilename) []
    return 0
  | .ok (.run module _) =>
    IO.println (module ++ " " ++ e.search.headD "")
    return 0
  | .error err =>
    IO.eprintln (err.kind.name ++ ": " ++ err.text)
    return 1
