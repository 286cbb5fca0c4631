namespace FlatScript.CommandLine

inductive TreeFormat
  | outline
  | json
deriving DecidableEq, Repr

def TreeFormat.ofString? : String → Option TreeFormat
  | "text" => some .outline
  | "json" => some .json
  | _ => none

structure Options where
  verbose : Bool := false
  dumpTokens : Bool := false
  dumpTree? : Option TreeFormat := none
deriving DecidableEq, Repr

inductive UsageError
  | unknownArgument (argument : String)
  | repeated (option : String)
  | unneededValue (option value : String)
  | invalidValue (option value : String)
  | missingInput
deriving DecidableEq, Repr

def UsageError.message : UsageError → String
  | .unknownArgument argument => "unexpected argument '" ++ argument ++ "' found"
  | .repeated option => "the argument '" ++ option ++ "' cannot be used multiple times"
  | .unneededValue option value =>
    "unexpected value '" ++ value ++ "' for '" ++ option ++ "' found; no more were expected"
  | .invalidValue option value => "invalid value '" ++ value ++ "' for '" ++ option ++ "'"
  | .missingInput => "the following required arguments were not provided: <input>"

inductive Request
  | help
  | version
  | run (options : Options) (path : String)
  | misuse (e : UsageError)
deriving DecidableEq, Repr

structure Draft where
  options : Options := {}
  path? : Option String := none
deriving DecidableEq, Repr

namespace Draft

abbrev Step := Except Request Draft

def refuse (e : UsageError) : Step := .error (.misuse e)

def setVerbose (d : Draft) : Step :=
  if d.options.verbose then refuse (.repeated "--verbose")
  else .ok { d with options := { d.options with verbose := true } }

def setDumpTokens (d : Draft) : Step :=
  if d.options.dumpTokens then refuse (.repeated "--dump-tokens")
  else .ok { d with options := { d.options with dumpTokens := true } }

def setDumpTree (d : Draft) (format : TreeFormat) : Step :=
  if d.options.dumpTree?.isSome then refuse (.repeated "--dump-ast")
  else .ok { d with options := { d.options with dumpTree? := some format } }

def setPath (d : Draft) (path : String) : Step :=
  match d.path? with
  | some _ => refuse (.unknownArgument path)
  | none => .ok { d with path? := some path }

def long (d : Draft) (name : String) (value? : Option String) : Step :=
  let only (step : Step) : Step :=
    match value? with
    | some value => refuse (.unneededValue ("--" ++ name) value)
    | none => step
  match name with
  | "verbose" => only d.setVerbose
  | "dump-tokens" => only d.setDumpTokens
  | "dump-ast" =>
    match value? with
    | none => d.setDumpTree .outline
    | some value =>
      match TreeFormat.ofString? value with
      | some format => d.setDumpTree format
      | none => refuse (.invalidValue "--dump-ast" value)
  | "help" => only (.error .help)
  | "version" => only (.error .version)
  | name => refuse (.unknownArgument ("--" ++ name))

def short (d : Draft) (letter : Char) : Step :=
  match letter with
  | 'v' => d.setVerbose
  | 'h' => .error .help
  | 'V' => .error .version
  | letter => refuse (.unknownArgument ("-" ++ letter.toString))

/-- Two dashes begin a long name, one dash begins letters, and all else is a path. -/
def argument (d : Draft) (text : String) : Step :=
  match text.toList with
  | '-' :: '-' :: cs =>
    let value? := (cs.dropWhile (· != '=')).tail?
    d.long (.ofList (cs.takeWhile (· != '='))) (value?.map .ofList)
  | '-' :: c :: cs => (c :: cs).foldlM short d
  | _ => d.setPath text

/-- Behind an argument of two dashes there are only paths. -/
def arguments (d : Draft) : List String → Step
  | [] => .ok d
  | "--" :: paths => paths.foldlM setPath d
  | text :: texts =>
    match d.argument text with
    | .ok d => arguments d texts
    | .error request => .error request

end Draft

def debugVariable : String := "DUANG_DEBUG"

def readSwitch? (word : String) : Option Bool :=
  let word := String.ofList (word.toList.map Char.toLower)
  if word ∈ ["y", "yes", "t", "true", "on", "1"] then some true
  else if word ∈ ["n", "no", "f", "false", "off", "0"] then some false
  else none

/-- The variable of the environment counts only where the arguments do not ask for `--verbose`. -/
def Draft.finish (debug : Option String) (d : Draft) : Request :=
  let verbose? : Option Bool :=
    if d.options.verbose then some true
    else
      match debug with
      | none => some false
      | some word => readSwitch? word
  match verbose?, d.path? with
  | none, _ => .misuse (.invalidValue "--verbose" (debug.getD ""))
  | _, none => .misuse .missingInput
  | some verbose, some path => .run { d.options with verbose } path

def Request.ofArguments (debug : Option String) (texts : List String) : Request :=
  match Draft.arguments {} texts with
  | .ok d => d.finish debug
  | .error request => request

def versionText : String := "duang 0.1.0\n"

def descriptionColumn : Nat := 31

def helpText (debug : Option String) : String :=
  let shown := (debug.getD "").toList.flatMap fun c =>
    if c = '\n' then '\n' :: List.replicate descriptionColumn ' ' else [c]
  "Duang scripting language interpreter\n" ++
  "\n" ++
  "Usage: duang [OPTIONS] <input>\n" ++
  "\n" ++
  "Arguments:\n" ++
  "  <input>  Source file to run\n" ++
  "\n" ++
  "Options:\n" ++
  "  -v, --verbose                Log every phase at debug level " ++
    "[env: " ++ debugVariable ++ "=" ++ .ofList shown ++ "]\n" ++
  "      --dump-tokens            Print the token stream as JSON lines before running\n" ++
  "      --dump-ast[=<dump-ast>]  Print the resolved syntax tree before running " ++
    "[possible values: text, json]\n" ++
  "  -h, --help                   Print help\n" ++
  "  -V, --version                Print version\n"

end FlatScript.CommandLine
