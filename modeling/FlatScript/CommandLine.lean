import FlatScript.CommandLine.Options
import FlatScript.Interpreter
import FlatScript.Program.Document
import FlatScript.Program.Outline

namespace FlatScript

def Token.toJson (t : Token) : Json :=
  .record
    [("kind", .string t.kind.name),
      ("location",
        .record [("line", .nat t.location.line), ("column", .nat t.location.column)]),
      ("text", .string t.text)]

def Resolved.render (p : Resolved) : CommandLine.TreeFormat → String
  | .outline => p.program.outline (some p.resolution.isLinked)
  | .json =>
    let reference (r : NodeId × Symbol) : Json :=
      .record [("node", .nat r.1), ("symbol", .string r.2.name)]
    let references := p.resolution.references.map reference
    (Json.record [("program", p.program.toJson), ("references", .array references)]).pretty ++ "\n"

def textOfFile (bytes : ByteArray) : Except FileError String :=
  match String.fromUTF8? bytes with
  | some text => .ok text
  | none => .error .invalidText

namespace CommandLine

def tokenLines (tokens : List Token) : String :=
  String.join (tokens.map fun t => t.toJson.compact ++ "\n")

structure Completion where
  result : Except Failure Value
  output : Output := {}
  log : List String := []

def verboseLog (p : Resolved) (result : Except Failure Value) : List String :=
  ["syntax tree before resolution:\n" ++ p.program.outline none,
    "syntax tree after resolution:\n" ++ p.render .outline] ++
  match result with
  | .ok value => ["program returned " ++ value.text]
  | .error _ => []

/-- Runs a text behind what the options ask to be shown of it: its tokens, before it is read, and
its tree, once it is resolved. -/
def Options.run (o : Options) (shell : Shell) (text : String) : Completion :=
  let (tokens, warnings) := if o.dumpTokens then tokenize text else (.ok [], [])
  match tokens with
  | .error e => { result := .error (.parse (.lex e)), log := warnings.map Warning.message }
  | .ok tokens =>
    let (_, output) := ({} : Output).write (tokenLines tokens)
    let (resolved, later) := Resolved.ofString text
    let log := (warnings ++ later).map Warning.message
    match resolved with
    | .error e => { result := .error e, output, log }
    | .ok p =>
      let (_, output) := output.write ((o.dumpTree?.map p.render).getD "")
      let (result, m) := p.run shell { output }
      let more := if o.verbose then verboseLog p result else []
      { result, output := m.output, log := log ++ more }

structure Behavior where
  status : Nat
  output : ByteArray := .empty
  errors : String := ""

def fatalText (e : Failure) : String := "Error: " ++ e.message ++ "\n"

def Completion.behavior (c : Completion) : Behavior :=
  let log := String.join (c.log.map (· ++ "\n"))
  match c.result with
  | .ok _ => { status := 0, output := c.output.bytes, errors := log }
  | .error e => { status := 1, output := c.output.bytes, errors := log ++ fatalText e }

def Options.runFile (o : Options) (shell : Shell) : Except FileError String → Completion
  | .error e => { result := .error (.file e) }
  | .ok text => o.run shell text

def usageText (e : UsageError) : String :=
  "error: " ++ e.message ++ "\n\nUsage: duang [OPTIONS] <input>\n\n" ++
    "For more information, try '--help'.\n"

end CommandLine

end FlatScript
