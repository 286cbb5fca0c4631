import FlatScript.Command
import FlatScript.Shell.Builtin
import FlatScript.Shell.Reader

namespace FlatScript.Shell

abbrev Runner := Bool → List Command → Act Unit

def callLimit : Nat := 1000

def runEach (step : Command → Act Unit) : List Command → Act Unit
  | [] => return
  | c :: cs => do
    if (← get).isRunning then
      step c
      runEach step cs

def checkStatus (tested : Bool) : Act Unit := do
  let s ← get
  if s.status ≠ 0 ∧ !tested ∧ s.hasOption 'e' then throw .exit

section

variable (run : Runner)

def runLines (tested : Bool) : Nat → Reading → Bool → Act Bool
  | 0, _, ran => return ran
  | fuel + 1, r, ran => do
    let (result, r) :=
      Reading.line? { r with nextDocument := (← get).nextDocument, documents := [] }
    match result with
    | .error complaint =>
      modify fun s => { s with line := r.line }
      fail ("Syntax error: " ++ complaint)
    | .ok none => return ran
    | .ok (some commands) =>
      modify fun s =>
        { s with documents := r.documents ++ s.documents, nextDocument := r.nextDocument }
      run tested commands
      if !(← get).isRunning then return true
      runLines tested fuel r (ran || !commands.isEmpty)

def runText (tested : Bool) (text : Octets) : Act Bool :=
  runLines run tested (text.length + 1) { text } false

/-- Takes the last step of a shell, and then what the shell is set to do at its end. That changes
the status only if it ends the shell itself. -/
def runToEnd (act : Act Unit) : Act Unit := fun s =>
  let (_, after) := act.run s
  match after.traps.lookup "EXIT".toList with
  | none => (.ok (), after)
  | some text =>
    let (result, final) :=
      (runText run false text).run
        { after with traps := [], flow := .running, loops := 0, ending? := some after.status }
    match result with
    | .ok _ => (.ok (), { final with status := after.status })
    | .error _ => (.ok (), final)

def runApart (act : Act Unit) : Act Unit := inSubshell (runToEnd run act)

def substitute (body : List Command) : Act Octets := do
  let before := (← get).status
  let text ← capture (if body.isEmpty then setStatus 0 else runApart run (run false body))
  modify fun s => { s with status := before, substituted := s.status }
  return text

/-- Takes a step with redirections, and the ones before it again behind it. If one of them fails,
the step is not taken and the status is 2. -/
def withRedirects (redirects : List Redirect) (step : Act Unit) : Act Bool := do
  let opened ← redirects.mapM (expandRedirect (substitute run))
  let descriptors := (← get).descriptors
  let restore (s : State) : State := { s with descriptors }
  Act.finally (do
    if ← succeeds (redirectAll (substitute run) opened) then
      step
      return true
    setStatus 2
    return false) restore

/-- Runs the stages of a pipeline, each in a shell of its own that begins with the status `before`
and has the output of the stage in front of it as its input. -/
def runPipeline (tested : Bool) (before : Nat) : List Command → Act Unit
  | [] => return
  | [last] => runApart run (run tested [last])
  | stage :: stages => do
    let text ← capture (runApart run (run tested [stage]))
    let s ← get
    let (stream, channels) := s.channels.addSource text
    set { s with channels, descriptors := put 0 stream s.descriptors, status := before }
    runPipeline tested before stages

/-- Repeats a loop's condition and body, and gives the status of the body's last round, before the
first round `last`. -/
def repeatWhile (onFailure : Bool) (condition body : Act Unit) : Nat → Nat → Act Nat
  | 0, last => return last
  | rounds + 1, last => do
    condition
    let (round, s) := (← get).endRound
    set s
    match round with
    | .last => return if s.flow = .returning then s.status else last
    | .cutShort => repeatWhile onFailure condition body rounds last
    | .complete =>
      if (s.status == 0) == onFailure then return last
      body
      let (round, s) := (← get).endRound
      set s
      if round = .last then return s.status
      repeatWhile onFailure condition body rounds s.status

def repeatFor (name : Octets) (body : Act Unit) : List Octets → Act Unit
  | [] => return
  | field :: fields => do
    setVariable name field
    body
    let (round, s) := (← get).endRound
    set s
    if round ≠ .last then repeatFor name body fields

def inLoop (step : Act α) : Act α := do
  let loops := (← get).loops
  modify fun s => { s with loops := loops + 1 }
  Act.finally step fun s => { s with loops }

def findBranch? (text : Octets) :
    List (List Word × List Command) → Act (Option (List Command))
  | [] => return none
  | (patterns, body) :: branches => do
    let rec matchesAny : List Word → Act Bool
      | [] => return false
      | pattern :: patterns => do
        if (← expandPattern (substitute run) pattern).isMatch text then return true
        matchesAny patterns
    if ← matchesAny patterns then return some body
    findBranch? text branches

def callFunction (tested : Bool) (body : Command) (arguments : List Octets) : Act Unit := do
  let before ← get
  if callLimit ≤ before.calls then
    fail s!"Maximum function recursion depth ({callLimit}) reached"
  set { before with arguments, loops := 0, calls := before.calls + 1, optionsRead := (1, []) }
  Act.finally (run tested [body]) fun s =>
    { s with arguments := before.arguments, loops := before.loops, calls := before.calls,
             optionsRead := before.optionsRead,
             flow := if s.flow = .returning then .running else s.flow }

/-- Whether the arguments of a command may be assignments, which are not divided; its first fields
tell, except where they are all `command`. -/
def isDeclaring? (fields : List Octets) : Option Bool :=
  (fields.dropWhile (· == "command".toList)).head?.map fun name =>
    ["export", "readonly", "local"].contains (String.ofList name)

/-- Expands the words of a command, of which the ones in front may already have told whether its
arguments may be assignments. -/
def expandCommand (declaring? : Option Bool) : List Word → Act (List Octets)
  | [] => return []
  | word :: words => do
    let fields ← match if declaring? = some true then assignment? word else none with
      | some (name, value) => do
        let text ← expandText (substitute run) value
        pure [name ++ '=' :: text]
      | none => expandFields (substitute run) word
    return fields ++ (← expandCommand (declaring? <|> isDeclaring? fields) words)

def leaveLoops (name : Octets) (args : List Octets) : Act Unit := do
  let n ← countOf (args.headD ['1'])
  if n = 0 then fail ("Illegal number: " ++ .ofList (args.headD []))
  modify fun s =>
    let n := min n s.loops
    let flow : Flow :=
      if n = 0 then s.flow
      else if name = "break".toList then .breaking n
      else .continuing n
    { s with status := 0, flow }

def runSpecial (tested : Bool) (name : Octets) (args : List Octets) : Act Unit := do
  match String.ofList name with
  | "break" | "continue" => leaveLoops name args
  | "eval" =>
    if !(← runText run tested (joinWith [' '] args)) then setStatus 0
  | "exec" =>
    match args with
    | [] => setStatus 0
    | name :: args =>
      match String.ofList name with
      | "printf" => Builtin.runPrintf args
      | "true" => setStatus 0
      | "false" => setStatus 1
      | _ => External.run true name args
      throw .exit
  | "exit" =>
    match args with
    | [] => modify fun s => { s with status := s.ending?.getD s.status }
    | arg :: _ => setStatus (← countOf arg)
    throw .exit
  | "export" | "readonly" => Builtin.runDeclare name args
  | "local" => Builtin.runLocal args
  | "return" =>
    if let arg :: _ := args then setStatus (← countOf arg)
    modify fun s => { s with flow := .returning }
  | "set" =>
    if args.isEmpty then Builtin.showBindings "" (·.value?.isSome)
    else
      Builtin.setOptions args
      setStatus 0
  | "shift" =>
    let n ← countOf (args.headD ['1'])
    let s ← get
    if s.arguments.length < n then fail "can't shift that many"
    set { s with arguments := s.arguments.drop n, status := 0, optionsRead := (1, []) }
  | "times" => printWith 0 (octets "0m0.000000s 0m0.000000s\n0m0.000000s 0m0.000000s\n")
  | "trap" => Builtin.runTrap args
  | "unset" => Builtin.runUnset args
  | "." =>
    match args with
    | [] => setStatus 0
    | path :: _ =>
      match openForReading? path (← get) with
      | none =>
        fail (if path.contains '/' then "cannot open " ++ .ofList path ++ ": No such file"
          else .ofList path ++ ": not found")
      | some (stream, s) =>
        let text := match stream with
          | .source n => s.channels.unread n
          | _ => []
        if !(← runText run tested text) then setStatus 0
        modify fun s => { s with flow := if s.flow = .returning then .running else s.flow }
  | _ => setStatus 0

def runRegular (name : Octets) (args : List Octets) : Act Unit := do
  match String.ofList name with
  | "echo" => printWith 0 (echo args)
  | "printf" => Builtin.runPrintf args
  | "read" => Builtin.runRead args
  | "test" | "[" => Builtin.runTest name args
  | "type" => Builtin.runType args
  | "wait" => Builtin.runWait args
  | "getopts" => Builtin.runGetopts args
  | "false" => setStatus 1
  | _ => setStatus 0

def runOther (name : Octets) (args : List Octets) : Act Unit := do
  if regularBuiltins.contains (.ofList name) then
    let _ ← succeeds (asCommand name (runRegular name args))
  else External.run false name args

/-- Runs the command behind `command`, for which functions do not count and in which a failure does
not end the shell. -/
def runPlain (tested : Bool) : List Octets → Act Unit
  | [] => setStatus 0
  | name :: args => do
    if name = ['-', '-'] ∨ name = ['-', 'p'] then runPlain tested args
    else if name.head? = some '-' ∧ name.length ≠ 1 then
      let _ ← succeeds (asCommand "command".toList do
        let (letters, names) ← readLetters "pvV".toList (name :: args)
        if letters.getLast? = some 'V' then Builtin.runType names
        else Builtin.showCommands names)
    else if specialBuiltins.contains (.ofList name) then
      let _ ← succeeds (asCommand name (runSpecial run tested name args))
    else runOther name args

def runFields (tested : Bool) (fields : List Octets) : Act Unit := do
  let s ← get
  match fields with
  | [] => setStatus s.substituted
  | name :: args =>
    if specialBuiltins.contains (.ofList name) then
      asCommand name (runSpecial run tested name args)
    else
      match s.functions.lookup name with
      | some body => callFunction run tested body args
      | none => if name = "command".toList then runPlain run tested args else runOther name args

def withAssignments (assignments : List (Octets × Word)) (step : Act Unit) : Act Unit := do
  modify fun s => { s with hidden := [] :: s.hidden }
  Act.finally (do
    for (name, word) in assignments do
      let value ← expandText (substitute run) word
      modify (·.hide name)
      setVariable name value
    step) State.restoreBindings

/-- Runs a simple command: expands its words, then redirects, then assigns. The assignments of a
special command, or of none, remain. -/
def runSimple (tested : Bool) (assignments : List (Octets × Word)) (words : List Word)
    (redirects : List Redirect) : Act Unit := do
  modify fun s => { s with substituted := 0 }
  let fields ← expandCommand run none words
  let isSpecial := fields.head?.any fun name => specialBuiltins.contains (.ofList name)
  let step : Act Unit :=
    if isSpecial || fields.isEmpty then do
      for (name, word) in assignments do
        setVariable name (← expandText (substitute run) word)
      runFields run tested fields
    else withAssignments run assignments (runFields run tested fields)
  if fields = ["exec".toList] then
    let opened ← redirects.mapM (expandRedirect (substitute run))
    redirectAll (substitute run) opened
    step
  else if !(← withRedirects run redirects step) ∧ isSpecial then throw .failure

end

/-- Runs a command; `fuel` bounds how deep commands nest, and how often a loop repeats. -/
def runCommand : Nat → Bool → Command → Act Unit
  | 0, _, _ => return
  | fuel + 1, tested, c => do
    let run (tested : Bool) (cs : List Command) : Act Unit := runEach (runCommand fuel tested) cs
    match c with
    | .simple assignments words redirects =>
      runSimple run tested assignments words redirects
      checkStatus tested
    | .onLine line body =>
      modify fun s => { s with line }
      run tested [body]
    | .redirected body redirects =>
      let _ ← withRedirects run redirects (run tested [body])
    | .negated body =>
      run true [body]
      if (← get).isRunning then setStatus (if (← get).status = 0 then 1 else 0)
    | .both first second =>
      run true [first]
      if (← get).status = 0 then run tested [second]
    | .either first second =>
      run true [first]
      if (← get).status ≠ 0 then run tested [second]
    | .pipeline stages =>
      let { descriptors, status, .. } ← get
      Act.finally (runPipeline run tested status stages) fun s => { s with descriptors }
      checkStatus tested
    | .background body =>
      let descriptors := (← get).descriptors
      modify fun s => { s with descriptors := put 0 .nothing s.descriptors }
      runApart run (run false [body])
      modify fun s =>
        { s with status := 0, descriptors, jobs := (s.jobs.length + 2, s.status) :: s.jobs }
    | .group body => run tested body
    | .subshell body redirects =>
      let opened ← redirects.mapM (expandRedirect (substitute run))
      runApart run do
        redirectAll (substitute run) opened
        run tested body
      checkStatus tested
    | .conditional condition body otherwise =>
      run true condition
      let s ← get
      if s.isRunning then
        if s.status = 0 then run tested body
        else if otherwise.isEmpty then setStatus 0
        else run tested otherwise
    | .loop onFailure condition body =>
      setStatus (← inLoop (repeatWhile onFailure (run true condition) (run tested body) fuel 0))
    | .forEach name words body =>
      let fields ← words.mapM (expandFields (substitute run))
      if fields.flatten.isEmpty then setStatus 0
      else inLoop (repeatFor name (run tested body) fields.flatten)
    | .choice word branches =>
      let text ← expandText (substitute run) word
      match ← findBranch? run text branches with
      | some (c :: body) => run tested (c :: body)
      | _ => setStatus 0
    | .function name body =>
      modify fun s => { s with functions := put name body s.functions, status := 0 }

def commandLimit : Nat := 200000

def initialBindings : List (Octets × Binding) :=
  [("IFS", " \t\n"), ("OPTIND", "1"), ("PS1", "$ "), ("PS2", "> "), ("PS4", "+ ")].map
    fun (name, value) => (name.toList, { value? := some value.toList })

def maxSize : Nat := Nat.pow 2 17 - 1

def outcomeOf (text : String) : CommandOutcome :=
  let run : Runner := fun tested cs => runEach (runCommand commandLimit tested) cs
  let initial : State :=
    { bindings := initialBindings, channels := { sinks := [(1, []), (2, [])] } }
  let act : Act Unit := do
    let _ ← runText run false (octets text)
  let (_, final) := (runToEnd run act).run initial
  { output := ofOctets (final.channels.written 1), errors := ofOctets (final.channels.written 2),
    status := .exited (final.status % 256) }

/-- A stand-in for the shell of a system, for running programs where there is none. Programs are
given a shell, whatever it is, and nothing about them rests on this one. -/
def execute (command : String) : Except String CommandOutcome :=
  if maxSize < command.utf8ByteSize then .error "Argument list too long (os error 7)"
  else .ok (outcomeOf command)

end FlatScript.Shell
