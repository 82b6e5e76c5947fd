/-!
# Command line arguments

Options may be given by their short or their long names, short ones may be joined, long ones may be
cut short as long as one option fits, and the argument of an option may be joined to it. One
argument that is no option is taken as a file name. After two dashes there are no more options.
-/

namespace TreeMacros.Launch

inductive Choice where
  | help | version | module | interactive | plotting
  deriving DecidableEq, Repr, Inhabited

namespace Choice

def names : List (String × Choice) :=
  [("-h", help), ("--help", help), ("-v", version), ("--version", version), ("-m", module),
   ("--module", module), ("-i", interactive), ("--interactive", interactive), ("-p", plotting),
   ("--pylab", plotting)]

def takesArgument : Choice → Bool
  | module => true
  | _ => false

end Choice

/-- An argument: an option with what is joined to it, something that looks like one, the two
dashes, or a plain argument. -/
inductive Token where
  | option (choice : Choice) (isShort : Bool) (joined : Option String)
  | unknown
  | dashes
  | plain (text : String)
  deriving DecidableEq, Repr

def splitAtEquals (cs : List Char) : Option (String × String) :=
  match cs.dropWhile (· != '=') with
  | _ :: rest => some (String.ofList (cs.takeWhile (· != '=')), String.ofList rest)
  | [] => none

/-- A minus sign before a number. -/
def looksNegative (cs : List Char) : Bool :=
  match cs with
  | '-' :: rest =>
    let whole := rest.takeWhile Char.isDigit
    match rest.dropWhile Char.isDigit with
    | [] => !whole.isEmpty
    | '.' :: places => !places.isEmpty && places.all Char.isDigit
    | _ => false
  | _ => false

/-- What else an argument can be that starts with a dash and is not the name of an option. -/
def otherToken (text : String) : Token :=
  if looksNegative text.toList || text.toList.contains ' ' then .plain text else .unknown

/-- Reads an argument that starts with two dashes. More than one option that fits is an error. -/
def longToken (text : String) : Option Token :=
  let (name, joined) := match splitAtEquals text.toList with
    | some (name, value) => (name, some value)
    | none => (text, none)
  match Choice.names.filter fun (n, _) => n.startsWith name with
  | [] => some (otherToken text)
  | [(_, choice)] => some (.option choice false joined)
  | _ => none

def shortToken (text : String) : Token :=
  let cs := text.toList
  match Choice.names.lookup (String.ofList (cs.take 2)) with
  | some choice => .option choice true (some (String.ofList (cs.drop 2)))
  | none => otherToken text

def token (text : String) : Option Token :=
  match text.toList with
  | '-' :: second :: _ =>
    match Choice.names.lookup text with
    | some choice => some (.option choice (second != '-') none)
    | none =>
      match (splitAtEquals text.toList).bind fun (n, v) => (Choice.names.lookup n).map (·, v) with
      | some (choice, value) => some (.option choice (second != '-') (some value))
      | none => if second == '-' then longToken text else some (shortToken text)
  | _ => some (.plain text)

def tokens : List String → Option (List Token)
  | [] => some []
  | "--" :: rest => some (.dashes :: rest.map .plain)
  | text :: rest => do return (← token text) :: (← tokens rest)

/-- What the arguments ask for. -/
structure Options where
  file : Option String
  module : Option String
  interactive : Bool
  plotting : Bool
  deriving DecidableEq, Repr, Inhabited

inductive Parsed where
  | options (o : Options)
  | help
  | version
  | misuse
  deriving DecidableEq, Repr

/-- The options joined in one argument, with the argument of the last one; `none` if something is
left over. The last option still needs an argument if that is `none` and it takes one. -/
def joinedChoices (choice : Choice) (isShort : Bool) :
    Option (List Char) → Option (List Choice × Option String)
  | none => some ([choice], none)
  | some joined =>
    if choice.takesArgument then some ([choice], some (String.ofList joined))
    else if !isShort then none
    else
      match joined with
      | [] => none
      | c :: rest =>
        match Choice.names.lookup (String.ofList ['-', c]) with
        | none => none
        | some next => do
          let (choices, argument) ←
            match rest with
            | [] => some ([next], none)
            | r :: rs => joinedChoices next true (some (r :: rs))
          return (choice :: choices, argument)
termination_by joined => (joined.map (·.length)).getD 0
decreasing_by all_goals simp_all

/-- Carries out options in order; the first that asks for help or the version ends this. -/
def take (o : Options) (argument : String) : List Choice → Options ⊕ Parsed
  | [] => .inl o
  | .help :: _ => .inr .help
  | .version :: _ => .inr .version
  | .module :: rest => take { o with module := some argument } argument rest
  | .interactive :: rest => take { o with interactive := true } argument rest
  | .plotting :: rest => take { o with plotting := true } argument rest

/-- Goes through the arguments. `waiting` says whether a file name may still come, and `leftOver`
whether there was something that nothing was to be done with. -/
def collect (o : Options) (waiting leftOver : Bool) : List Token → Parsed
  | [] => if leftOver then .misuse else .options o
  | .unknown :: more => collect o waiting true more
  | .plain text :: .dashes :: more =>
    if waiting then collect { o with file := some text } false leftOver more
    else collect o false true more
  | .plain text :: more =>
    if waiting then collect { o with file := some text } false leftOver more
    else collect o false true more
  | .dashes :: .plain text :: more =>
    if waiting then collect { o with file := some text } false leftOver more
    else collect o false true more
  | .dashes :: more => if waiting then collect o false leftOver more else collect o false true more
  | .option choice isShort joined :: more =>
    match joinedChoices choice isShort (joined.map String.toList) with
    | none => .misuse
    | some (choices, argument) =>
      let needs := argument.isNone && (choices.getLast?.map Choice.takesArgument).getD false
      if needs then
        match more with
        | .plain text :: more =>
          match take o text choices with
          | .inl o => collect o waiting leftOver more
          | .inr p => p
        | _ => .misuse
      else
        match take o (argument.getD "") choices with
        | .inl o => collect o waiting leftOver more
        | .inr p => p

def parse (args : List String) : Parsed :=
  match tokens args with
  | none => .misuse
  | some ts => collect ⟨none, none, false, false⟩ true false ts

def versionText : String := "macropython (mcpyrate 3.0.0)\n"

def usageText : String := "usage: macropython [-h] [-v] [-m mod] [-i] [-p] [file]\n"

def helpText : String := usageText ++ "
Run a Python program or an interactive interpreter with mcpyrate enabled.

positional arguments:
  file                  script to run

options:
  -h, --help            show this help message and exit
  -v, --version         show program's version number and exit
  -m mod, --module mod  run library module as a script (like python -m mod)
  -i, --interactive     interactive mode (macro-enabled Python interpreter).
                        If -i is given, <filename> and -m <mod> are ignored.
  -p, --pylab           For use together with \"-i\". Automatically \"import
                        numpy as np\", \"import matplotlib.pyplot as plt\", and
                        enable mpl's interactive mode (somewhat like IPython's
                        pylab mode).
"

end TreeMacros.Launch
