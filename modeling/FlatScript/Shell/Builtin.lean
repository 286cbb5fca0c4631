import FlatScript.Shell.Channel
import FlatScript.Shell.Condition
import FlatScript.Shell.Format
import FlatScript.Shell.Listing
import FlatScript.Shell.Token
import FlatScript.Shell.Translation

namespace FlatScript.Shell

/-- Takes the options of which the letters are `letters` from the arguments: the letters that are
there, and the other arguments. -/
def readLetters (letters : Octets) : List Octets → Act (Octets × List Octets)
  | [] => return ([], [])
  | arg :: args =>
    match arg with
    | ['-', '-'] => return ([], args)
    | '-' :: c :: cs => do
      match (c :: cs).find? (!letters.contains ·) with
      | some d => fail ("Illegal option -" ++ String.singleton d)
      | none =>
        let (more, rest) ← readLetters letters args
        return (c :: cs ++ more, rest)
    | arg => return ([], arg :: args)

def countOf (arg : Octets) : Act Nat :=
  match count? arg with
  | some n => return n
  | none => fail ("Illegal number: " ++ .ofList arg)

namespace Builtin

def runPrintf (args : List Octets) : Act Unit := do
  let (_, operands) ← readLetters [] args
  match operands with
  | [] => fail "usage: printf format [arg ...]"
  | format :: operands =>
    let filling := fillFormat format operands
    for complaint in filling.complaints.reverse do
      complain complaint
    printWith (if filling.complaints.isEmpty then 0 else 1) filling.output.reverse.flatten
    match filling.failure? with
    | some complaint => fail complaint
    | none => return

/-- Splits a line into stretches that may be divided and escaped characters, which may not; `run`
is the stretch in front with its last character first, `before` are the pieces in front of that.
Gives what is behind the line, and whether the line was ended. -/
def splitLine (raw : Bool) (run : Octets) (before : List Piece) :
    Octets → List Piece × Octets × Bool
  | [] => ((.text false .atSeparators run.reverse :: before).reverse, [], false)
  | '\n' :: rest => ((.text false .atSeparators run.reverse :: before).reverse, rest, true)
  | '\x00' :: rest => splitLine raw run before rest
  | '\\' :: rest =>
    if raw then splitLine raw ('\\' :: run) before rest
    else
      let before := .text false .atSeparators run.reverse :: before
      match rest with
      | [] => splitLine raw [] before []
      | '\n' :: rest => splitLine raw [] before rest
      | c :: rest => splitLine raw [] (.text true .nowhere [c] :: before) rest
  | c :: rest => splitLine raw (c :: run) before rest

def runRead (args : List Octets) : Act Unit := do
  let isPrompt (arg : Octets) := arg.take 2 == ['-', 'p']
  let args := match args with
    | ['-', 'p'] :: _ :: args => args
    | arg :: args => if isPrompt arg then args else arg :: args
    | [] => []
  let (letters, names) ← readLetters ['r'] args
  if names.isEmpty then fail "arg count"
  let (line, rest, ended) := splitLine (letters.contains 'r') [] [] (← unreadInput 0)
  leaveInput 0 rest
  let fields := splitFields (← get).separators (some names.length) line
  let fields := fields ++ List.replicate (names.length - fields.length) []
  for (name, value) in names.zip fields do
    setVariable name value
  setStatus (if ended then 0 else 1)

def runTest (name : Octets) (args : List Octets) : Act Unit := do
  let s ← get
  let files : FileView := {
    exists? := s.fileExists
    isDirectory := isDirectory
    size := fun path => ((s.fileSink? path).map (s.channels.written · |>.length)).getD 0 }
  let args ←
    if name = ['['] then
      if args.getLast? = some [']'] then pure args.dropLast else fail "missing ]"
    else pure args
  match Condition.decide files args with
  | .ok verdict => setStatus (if verdict then 0 else 1)
  | .error complaint => fail complaint

def showBindings (lead : String) (p : Binding → Bool) : Act Unit := do
  let bindings := (← get).bindings.filter fun (_, b) => p b
  let ordered := bindings.mergeSort fun a b => !b.1.lex a.1 fun c d => c.toNat < d.toNat
  let line (name : Octets) (b : Binding) : Octets :=
    lead.toList ++ name ++ (b.value?.elim [] fun value => '=' :: quote value) ++ ['\n']
  printWith 0 (ordered.flatMap fun (name, b) => line name b)

/-- Marks variables as exported or as fixed, after giving them the values that the arguments tell. -/
def runDeclare (name : Octets) (args : List Octets) : Act Unit := do
  let readOnly := name == "readonly".toList
  let (letters, operands) ← readLetters ['p'] args
  let mark (b : Binding) : Binding :=
    if readOnly then { b with isReadOnly := true } else { b with isExported := true }
  if letters.isEmpty && !operands.isEmpty then
    for operand in operands do
      let target := operand.takeWhile (· != '=')
      if !isName target then fail (.ofList target ++ ": bad variable name")
      if operand.length ≠ target.length then
        setVariable target (operand.drop (target.length + 1))
      modify fun s =>
        s.bind target (some (mark ((s.bindings.lookup target).getD { value? := none })))
    setStatus 0
  else showBindings (.ofList name ++ " ") fun b => if readOnly then b.isReadOnly else b.isExported

def runLocal (args : List Octets) : Act Unit := do
  if (← get).hidden.isEmpty then fail "not in a function"
  for arg in args do
    let target := arg.takeWhile (· != '=')
    if arg = ['-'] then continue
    if !isName target then fail (.ofList target ++ ": bad variable name")
    modify (·.hide target)
    if arg.length ≠ target.length then setVariable target (arg.drop (target.length + 1))
  setStatus 0

def runUnset (args : List Octets) : Act Unit := do
  let (letters, names) ← readLetters ['v', 'f'] args
  for target in names do
    if letters.getLast? = some 'f' then
      modify fun s => { s with functions := s.functions.filter (·.1 != target) }
    else
      if !isName target then fail (.ofList target ++ ": bad variable name")
      if ((← get).bindings.lookup target).any (·.isReadOnly) then
        fail (.ofList target ++ ": is read only")
      modify (·.bind target none)
  setStatus 0

def optionNames : List (String × Char) :=
  [("errexit", 'e'), ("noglob", 'f'), ("noexec", 'n'), ("xtrace", 'x'), ("verbose", 'v'),
    ("noclobber", 'C'), ("allexport", 'a'), ("notify", 'b'), ("nounset", 'u')]

def setOption (on : Bool) (c : Char) : Act Unit := do
  if !(optionNames.any (·.2 == c)) then
    fail ("Illegal option -" ++ String.singleton c)
  modify fun s =>
    { s with options := if on then c :: s.options.filter (· != c) else s.options.filter (· != c) }

def setOptions : List Octets → Act Unit
  | [] => return
  | arg :: args =>
    let setArguments (arguments : List Octets) : Act Unit :=
      modify fun s => { s with arguments, optionsRead := (1, []) }
    match arg, args with
    | ['-', '-'], args => setArguments args
    | ['-'], [] => return
    | ['-'], args => setArguments args
    | ['-', 'o'], long :: args | ['+', 'o'], long :: args => do
      match optionNames.lookup (.ofList long) with
      | some c => setOption (arg.head? == some '-') c
      | none => fail ("Illegal option -o " ++ .ofList long)
      setOptions args
    | '-' :: letters, args => do
      letters.forM (setOption true)
      setOptions args
    | '+' :: letters, args => do
      letters.forM (setOption false)
      setOptions args
    | arg, args => setArguments (arg :: args)

/-- The names of the signals in the order of their numbers. `EXIT` stands for the end of the shell,
and those without a name have their number as one. -/
def signals : List String :=
  ["EXIT", "HUP", "INT", "QUIT", "ILL", "TRAP", "ABRT", "BUS", "FPE", "KILL", "USR1", "SEGV",
    "USR2", "PIPE", "ALRM", "TERM", "16", "CHLD", "CONT", "STOP", "TSTP", "TTIN", "TTOU", "URG",
    "XCPU", "XFSZ", "VTALRM", "PROF", "WINCH", "IO", "PWR", "SYS", "32", "33", "RTMIN"] ++
  (List.range 15).map (fun n => s!"RTMIN+{n + 1}") ++
  (List.range 14).reverse.map (fun n => s!"RTMAX-{n + 1}") ++ ["RTMAX"]

/-- The name of a signal that is given by its name, in letters of either case, or its number. -/
def signal? (text : Octets) : Option Octets :=
  if text ≠ [] ∧ text.all Char.isDigit then (signals[(splitDigits 10 text).1]?).map (·.toList)
  else
    let name := text.map Char.toUpper
    if signals.contains (.ofList name) then some name else none

def runTrap (args : List Octets) : Act Unit := do
  let (_, args) ← readLetters [] args
  match args with
  | [] =>
    let s ← get
    let shown := signals.filterMap fun signal =>
      (s.traps.lookup signal.toList).map fun action =>
        "trap -- ".toList ++ quote action ++ ' ' :: signal.toList ++ ['\n']
    printWith 0 shown.flatten
  | first :: rest =>
    let resets := rest.isEmpty || (signal? first).isSome && first.all Char.isDigit || first == ['-']
    let isAction := !rest.isEmpty && !(first.all Char.isDigit && (signal? first).isSome)
    for text in if isAction then rest else args do
      match signal? text with
      | none =>
        report ("trap: " ++ .ofList text ++ ": bad trap")
        setStatus 1
        return
      | some signal =>
        modify fun s =>
          let traps := s.traps.filter (·.1 != signal)
          { s with traps := if resets then traps else (signal, first) :: traps }
    setStatus 0

def runWait (args : List Octets) : Act Unit := do
  match args with
  | [] => setStatus 0
  | args =>
    for arg in args do
      let job ← countOf arg
      setStatus (((← get).jobs.lookup job).getD 127)

def describe (s : State) (name : Octets) : Option String :=
  let text := String.ofList name
  if reservedWords.contains text then some "a shell keyword"
  else if specialBuiltins.contains text then some "a special shell builtin"
  else if (s.functions.lookup name).isSome then some "a shell function"
  else if regularBuiltins.contains text then some "a shell builtin"
  else if text = "cat" ∨ text = "tr" then some ("/usr/bin/" ++ text)
  else if name.contains '/' ∧ s.fileExists name then some text
  else none

def runType (args : List Octets) : Act Unit := do
  let s ← get
  let line (arg : Octets) : String :=
    .ofList arg ++ (describe s arg).elim ": not found\n" fun description =>
      " is " ++ description ++ "\n"
  printWith (if args.all fun arg => (describe s arg).isSome then 0 else 127)
    (args.flatMap fun arg => (line arg).toList)

def showCommands (args : List Octets) : Act Unit := do
  let s ← get
  let known := args.filter fun arg => (describe s arg).isSome
  let path (arg : Octets) : Octets :=
    if arg = "cat".toList ∨ arg = "tr".toList then "/usr/bin/".toList ++ arg else arg
  printWith (if known.length = args.length then 0 else 127)
    (known.flatMap fun arg => path arg ++ ['\n'])

/-- Takes the next option from the arguments of the script, or from further arguments. -/
def runGetopts (args : List Octets) : Act Unit := do
  match args with
  | letters :: result :: further =>
    let s ← get
    let arguments := if further.isEmpty then s.arguments else further
    let (next, left) := s.optionsRead
    let quiet := letters.head? == some ':'
    let leave (status next : Nat) (left : Octets) (value : Octets) : Act Unit := do
      setVariable "OPTIND".toList (decimal next)
      modify fun s => { s with optionsRead := (next, left) }
      setVariable result value
      setStatus status
    let read (next : Nat) (c : Char) (left : Octets) : Act Unit := do
      let takesValue (known : Octets) : Bool := known.head? == some ':'
      let problem (complaint : String) (next : Nat) (left : Octets) (value : Char) : Act Unit := do
        if quiet then
          setVariable "OPTARG".toList [c]
          leave 0 next left [value]
        else
          report (complaint)
          modify (·.bind "OPTARG".toList none)
          leave 0 next left ['?']
      match if c == ':' then [] else letters.dropWhile (· != c) with
      | [] => problem ("Illegal option -" ++ String.singleton c) next left '?'
      | _ :: known =>
        if !takesValue known then
          setVariable "OPTARG".toList []
          leave 0 next left [c]
        else if !left.isEmpty then
          setVariable "OPTARG".toList left
          leave 0 next [] [c]
        else
          match arguments[next - 1]? with
          | some value =>
            setVariable "OPTARG".toList value
            leave 0 (next + 1) [] [c]
          | none => problem ("No arg for -" ++ String.singleton c ++ " option") next [] ':'
    match left with
    | c :: left => read next c left
    | [] =>
      match arguments[next - 1]? with
      | some ['-', '-'] => leave 1 (next + 1) [] ['?']
      | some ('-' :: c :: left) => read (next + 1) c left
      | _ => leave 1 next [] ['?']
  | _ => fail "Usage: getopts optstring var [arg...]"

end Builtin

namespace External

def readFile (path : Octets) : Act (Except String Octets) := do
  let s ← get
  let all (descriptor : Nat) : Act (Except String Octets) := do
    if ((← get).descriptors.lookup descriptor).isNone then return .error "Bad file descriptor"
    let text ← unreadInput descriptor
    leaveInput descriptor []
    return .ok text
  if path = ['-'] then all 0
  else if path = nullDevice then return .ok []
  else if isDirectory path then return .error "Is a directory"
  else
    match device? path, s.fileSink? path with
    | some descriptor, _ => all descriptor
    | none, some sink => return .ok (s.channels.written sink)
    | none, none => return .error "No such file or directory"

def runCat (args : List Octets) : Act Unit := do
  match Listing.readOptions {} args with
  | .error complaint =>
    report ("cat: " ++ complaint ++ "\nTry 'cat --help' for more information.")
    setStatus 1
  | .ok (listing, files) =>
    let mut texts : List Octets := []
    let mut status := 0
    for file in if files.isEmpty then [['-']] else files do
      match ← readFile file with
      | .ok text => texts := text :: texts
      | .error complaint =>
        report ("cat: " ++ .ofList (fileName file) ++ ": " ++ complaint)
        status := 1
    if !(← writeTo 1 (listing.render texts.reverse.flatten)) then
      report "cat: standard output: Bad file descriptor"
      status := 1
    setStatus status

def runTr (args : List Octets) : Act Unit := do
  match Translation.ofArguments args with
  | .error complaint =>
    let _ ← writeTo 2 (octets "tr: " ++ complaint.message ++ ['\n'])
    setStatus 1
  | .ok translation =>
    let text ← unreadInput 0
    leaveInput 0 []
    if ← writeTo 1 (translation text) then setStatus 0
    else
      report "tr: write error: Bad file descriptor"
      setStatus 1

/-- Prints its arguments as they are; a first one `-n` asks for no line break behind them. -/
def runEcho (name : Octets) (args : List Octets) : Act Unit := do
  let text := match args with
    | ['-', 'n'] :: args => joinWith [' '] args
    | args => joinWith [' '] args ++ ['\n']
  if ← writeTo 1 text then setStatus 0
  else
    report (.ofList name ++ ": write error: Bad file descriptor")
    setStatus 1

/-- Runs a command that is no part of the shell, and tells whether it `isLast`. A path may lead to
something that is no program, as the empty name and those of directories do. -/
def run (isLast : Bool) (name : Octets) (args : List Octets) : Act Unit := do
  let text := String.ofList name
  match text with
  | "cat" | "/bin/cat" | "/usr/bin/cat" => runCat args
  | "tr" | "/bin/tr" | "/usr/bin/tr" => runTr args
  | "echo" | "/bin/echo" | "/usr/bin/echo" => runEcho name args
  | _ =>
    let isPath := name.contains '/'
    let s ← get
    let isKnown := if isPath then s.fileExists name else ["", ".", ".."].contains text
    complain (text ++ if isKnown then ": Permission denied" else ": not found")
    setStatus (if isKnown ∧ (isPath ∨ isLast) then 126 else 127)

end External

end FlatScript.Shell
