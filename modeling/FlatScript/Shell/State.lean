import FlatScript.Shell.Number
import FlatScript.Shell.Syntax

namespace FlatScript.Shell

inductive Stream
  | nothing
  | source (number : Nat)
  | sink (number : Nat)
deriving DecidableEq, Repr

/-- What all shells of a run share: the texts that can still be read, those that have been written
with the last stretch first, and which of these are files. Sinks 1 and 2 are the outputs of the run,
source 0 is its input. -/
structure Channels where
  sources : List (Nat × Octets) := []
  sinks : List (Nat × List Octets) := []
  files : List (Octets × Nat) := []
  next : Nat := 3

structure Binding where
  value? : Option Octets
  isReadOnly : Bool := false
  isExported : Bool := false

/-- How a round of a loop has ended: at the end of its commands, before, or with the loop. -/
inductive Round
  | complete
  | cutShort
  | last
deriving DecidableEq, Repr

/-- How a list of commands goes on: with its next command, with what is behind some of the loops
around it, with the next round of one of them, or with what is behind the call. -/
inductive Flow
  | running
  | breaking (loops : Nat)
  | continuing (loops : Nat)
  | returning
deriving DecidableEq, Repr

structure State where
  channels : Channels := {}
  descriptors : List (Nat × Stream) := [(0, .nothing), (1, .sink 1), (2, .sink 2)]
  bindings : List (Octets × Binding) := []
  /-- For each call and each command with bindings of its own, the bindings that it hides. -/
  hidden : List (List (Octets × Option Binding)) := []
  arguments : List Octets := []
  functions : List (Octets × Command) := []
  documents : List Document := []
  nextDocument : Nat := 0
  options : List Char := []
  traps : List (Octets × Octets) := []
  status : Nat := 0
  line : Nat := 1
  command : Octets := []
  ending? : Option Nat := none
  substituted : Nat := 0
  flow : Flow := .running
  loops : Nat := 0
  calls : Nat := 0
  jobs : List (Nat × Nat) := []
  /-- How far `getopts` has come: the number of the next argument, and the letters that are left of
  the one before. -/
  optionsRead : Nat × Octets := (1, [])

/-- Why a shell ends before its text does: because it is told to, or because something is wrong. -/
inductive Stop
  | exit
  | failure
deriving DecidableEq, Repr

abbrev Act := ExceptT Stop (StateM State)

def put [BEq α] (key : α) (value : β) (table : List (α × β)) : List (α × β) :=
  (key, value) :: table.filter (·.1 != key)

def Act.finally (act : Act α) (change : State → State) : Act α := fun s =>
  let (result, after) := act.run s
  (result, change after)

namespace Channels

def write (c : Channels) (sink : Nat) (text : Octets) : Channels :=
  match c.sinks.lookup sink with
  | some texts => { c with sinks := put sink (text :: texts) c.sinks }
  | none => c

def written (c : Channels) (sink : Nat) : Octets :=
  ((c.sinks.lookup sink).getD []).reverse.flatten

def unread (c : Channels) (source : Nat) : Octets := (c.sources.lookup source).getD []

def addSource (c : Channels) (text : Octets) : Stream × Channels :=
  (.source c.next, { c with sources := (c.next, text) :: c.sources, next := c.next + 1 })

def addSink (c : Channels) : Nat × Channels :=
  (c.next, { c with sinks := (c.next, []) :: c.sinks, next := c.next + 1 })

end Channels

namespace State

def value? (s : State) (name : Octets) : Option Octets :=
  (s.bindings.lookup name).bind (·.value?)

def separators (s : State) : Octets := (s.value? "IFS".toList).getD [' ', '\t', '\n']

def hasOption (s : State) (c : Char) : Bool := s.options.contains c

def isRunning (s : State) : Bool := s.flow == .running

def endRound (s : State) : Round × State :=
  match s.flow with
  | .running => (.complete, s)
  | .breaking n => (.last, { s with flow := if n ≤ 1 then .running else .breaking (n - 1) })
  | .continuing n =>
    if n ≤ 1 then (.cutShort, { s with flow := .running })
    else (.last, { s with flow := .continuing (n - 1) })
  | .returning => (.last, s)

/-- Puts a binding in place of the one that a name has; with none, the name loses it. -/
def bind (s : State) (name : Octets) (binding? : Option Binding) : State :=
  { s with bindings := s.bindings.filter (·.1 != name) ++ (binding?.map (name, ·)).toList }

/-- Remembers the binding of a name until the call or the command is over that has bindings of its
own. -/
def hide (s : State) (name : Octets) : State :=
  match s.hidden with
  | [] => s
  | frame :: frames =>
    if frame.any (·.1 == name) then s
    else { s with hidden := ((name, s.bindings.lookup name) :: frame) :: frames }

def restoreBindings (s : State) : State :=
  match s.hidden with
  | [] => s
  | frame :: frames =>
    frame.foldl (fun s (name, binding?) => s.bind name binding?) { s with hidden := frames }

end State

def setStatus (status : Nat) : Act Unit := modify fun s => { s with status }

def writeTo (descriptor : Nat) (text : Octets) : Act Bool := do
  let s ← get
  match s.descriptors.lookup descriptor with
  | some (.sink sink) =>
    set { s with channels := s.channels.write sink text }
    return true
  | some .nothing => return true
  | _ => return text.isEmpty

def report (text : String) : Act Unit := do
  let _ ← writeTo 2 (text.toList ++ ['\n'])

def complain (text : String) : Act Unit := do
  let s ← get
  let command := if s.command.isEmpty then "" else .ofList s.command ++ ": "
  report s!"sh: {s.line}: {command}{text}"

def fail (text : String) : Act α := do
  complain text
  setStatus 2
  throw .failure

/-- Prints the output of the shell's own command that is running, which has gone as `status`
tells. -/
def printWith (status : Nat) (text : Octets) : Act Unit := do
  if ← writeTo 1 text then setStatus status
  else
    complain (.ofList (← get).command ++ ": I/O error")
    setStatus (max status 1)

def asCommand (command : Octets) (act : Act α) : Act α := do
  let before := (← get).command
  modify fun s => { s with command }
  Act.finally act fun s => { s with command := before }

def unreadInput (descriptor : Nat) : Act Octets := do
  let s ← get
  match s.descriptors.lookup descriptor with
  | some (.source source) => return s.channels.unread source
  | _ => return []

def leaveInput (descriptor : Nat) (text : Octets) : Act Unit :=
  modify fun s =>
    match s.descriptors.lookup descriptor with
    | some (.source source) =>
      { s with channels := { s.channels with sources := put source text s.channels.sources } }
    | _ => s

def setVariable (name value : Octets) : Act Unit := do
  let text := String.ofList name
  if !isName name then fail (text ++ ": bad variable name")
  let s ← get
  let b := (s.bindings.lookup name).getD { value? := none }
  if b.isReadOnly then fail (text ++ ": is read only")
  let b := { b with value? := some value, isExported := b.isExported || s.hasOption 'a' }
  let s := s.bind name (some b)
  set (if name = "OPTIND".toList then { s with optionsRead := ((count? value).getD 1, []) } else s)

def inSubshell (act : Act Unit) : Act Unit := fun s =>
  let (_, after) := act.run { s with traps := [] }
  (.ok (), { s with status := after.status % 256, channels := after.channels })

def capture (act : Act Unit) : Act Octets := fun s =>
  let (sink, channels) := s.channels.addSink
  let (result, after) :=
    act.run { s with channels, descriptors := put 1 (.sink sink) s.descriptors }
  let text := after.channels.written sink
  let sinks := after.channels.sinks.filter (·.1 != sink)
  (result.map fun _ => text,
    { after with channels := { after.channels with sinks }, descriptors := s.descriptors })

end FlatScript.Shell
