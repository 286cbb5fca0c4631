import FlatScript.Evaluation
import FlatScript.Failure
import FlatScript.Lexer
import FlatScript.Parser.Grammar

namespace FlatScript

def ParserState.ofString (text : String) : ParserState Script := { tokens := Lexer.ofString text }

def ParserState.warnings (s : ParserState Script) : List Warning := s.tokens.source.warnings

def Program.ofString (text : String) : Except ParseError Program × List Warning :=
  let (result, state) := Parser.program.run (.ofString text)
  (result, state.warnings)

structure Resolved where
  program : Program
  resolution : Resolution

def Resolved.ofString (text : String) : Except Failure Resolved × List Warning :=
  let (parsed, warnings) := Program.ofString text
  match parsed with
  | .error e => (.error (.parse e), warnings)
  | .ok program =>
    let (resolved, later) := program.resolve
    match resolved with
    | .error e => (.error (.resolve e), warnings ++ later)
    | .ok resolution => (.ok ⟨program, resolution⟩, warnings ++ later)

def Resolved.run (p : Resolved) (shell : Shell) (m : Machine) : Except Failure Value × Machine :=
  match p.program.run shell p.resolution m with
  | (.ok value, m) => (.ok value, m)
  | (.error e, m) => (.error (.runtime e), m)

/-- The end of a script: its value or why there is none, the machine it leaves, and the warnings. -/
structure Report where
  result : Except Failure Value
  machine : Machine
  warnings : List Warning

def interpret (shell : Shell) (m : Machine) (text : String) : Report :=
  match Resolved.ofString text with
  | (.error e, warnings) => ⟨.error e, m, warnings⟩
  | (.ok p, warnings) =>
    let (result, m) := p.run shell m
    ⟨result, m, warnings⟩

end FlatScript
