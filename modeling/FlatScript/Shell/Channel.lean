import FlatScript.Shell.Expansion

namespace FlatScript.Shell

def isDirectory (path : Octets) : Bool :=
  !path.isEmpty &&
    ["", "/tmp", "/dev", "/bin", "/usr", "/usr/bin", "/etc", ".", ".."].contains
      (String.ofList (path.reverse.dropWhile (· == '/')).reverse)

def nullDevice : Octets := "/dev/null".toList

def device? (path : Octets) : Option Nat :=
  match String.ofList path with
  | "/dev/stdin" => some 0
  | "/dev/stdout" => some 1
  | "/dev/stderr" => some 2
  | _ =>
    match behind? "/dev/fd/" path with
    | some [d] => digit? 10 d
    | _ => none

def isCreatable (path : Octets) : Bool :=
  let name := (path.reverse.takeWhile (· != '/')).reverse
  let directory := path.take (path.length - name.length)
  !name.isEmpty && (directory.isEmpty || directory == "./".toList || directory == "/tmp/".toList)

namespace State

def fileSink? (s : State) (path : Octets) : Option Nat := s.channels.files.lookup path

def fileExists (s : State) (path : Octets) : Bool :=
  path == nullDevice || isDirectory path || (device? path).any (s.descriptors.lookup · |>.isSome) ||
    (s.fileSink? path).isSome

end State

def openForReading? (path : Octets) (s : State) : Option (Stream × State) :=
  if path = nullDevice ∨ isDirectory path then some (.nothing, s)
  else
    match device? path, s.fileSink? path with
    | some descriptor, _ => (s.descriptors.lookup descriptor).map (·, s)
    | none, some sink =>
      let (stream, channels) := s.channels.addSource (s.channels.written sink)
      some (stream, { s with channels })
    | none, none => none

def openForWriting? (appends : Bool) (path : Octets) (s : State) : Option (Stream × State) :=
  if path = nullDevice then some (.nothing, s)
  else if isDirectory path then none
  else
    match device? path, s.fileSink? path with
    | some descriptor, _ => (s.descriptors.lookup descriptor).map (·, s)
    | none, some sink =>
      let channels :=
        if appends then s.channels
        else { s.channels with sinks := put sink [] s.channels.sinks }
      some (.sink sink, { s with channels })
    | none, none =>
      if isCreatable path then
        let (sink, channels) := s.channels.addSink
        let channels := { channels with files := (path, sink) :: channels.files }
        some (.sink sink, { s with channels })
      else none

inductive Opened
  | file (descriptor : Nat) (opening : Opening) (path : Octets)
  | duplicate (descriptor source : Nat)
  | close (descriptor : Nat)
  | document (descriptor number : Nat)

section

variable (substitute : List Command → Act Octets)

def expandRedirect : Redirect → Act Opened
  | .file descriptor opening path =>
    return .file descriptor opening (← expandText substitute path)
  | .document descriptor number => return .document descriptor number
  | .duplicate descriptor target => do
    match ← expandText substitute target with
    | ['-'] => return .close descriptor
    | [d] =>
      match digit? 10 d with
      | some source => return .duplicate descriptor source
      | none => fail "Syntax error: Bad fd number"
    | _ => fail "Syntax error: Bad fd number"

def lead (descriptor : Nat) (stream : Stream) : Act Unit :=
  modify fun s => { s with descriptors := put descriptor stream s.descriptors }

def redirect : Opened → Act Unit
  | .file descriptor opening path => do
    let s ← get
    let opened? : Option (Stream × State) :=
      match opening with
      | .reading => openForReading? path s
      | .writing => openForWriting? false path s
      | .appending | .updating => openForWriting? true path s
    match opened? with
    | some (stream, s) =>
      set s
      lead descriptor stream
    | none =>
      let text := String.ofList path
      if opening = .reading then fail ("cannot open " ++ text ++ ": No such file")
      else if isDirectory path then fail ("cannot create " ++ text ++ ": Is a directory")
      else fail ("cannot create " ++ text ++ ": Directory nonexistent")
  | .duplicate descriptor source => do
    match (← get).descriptors.lookup source with
    | some stream => lead descriptor stream
    | none => fail (toString source ++ ": Bad file descriptor")
  | .close descriptor =>
    modify fun s => { s with descriptors := s.descriptors.filter (·.1 != descriptor) }
  | .document descriptor number => do
    let text ← expandDocument substitute (((← get).documents.lookup number).getD [])
    let s ← get
    let (stream, channels) := s.channels.addSource text
    set { s with channels }
    lead descriptor stream

/-- Takes a step and tells whether it went well; a failure in it does not end the shell. -/
def succeeds (act : Act Unit) : Act Bool := fun s =>
  match act.run s with
  | (.ok (), after) => (.ok true, after)
  | (.error .failure, after) => (.ok false, after)
  | (.error .exit, after) => (.error .exit, after)

def redirectAll (redirects : List Opened) : Act Unit := redirects.forM (redirect substitute)

end

end FlatScript.Shell
