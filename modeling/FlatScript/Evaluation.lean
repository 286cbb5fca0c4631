import FlatScript.Arithmetic
import FlatScript.Command
import FlatScript.Environment
import FlatScript.Output
import FlatScript.Resolution
import FlatScript.Template
import FlatScript.Text.Blank
import FlatScript.Text.Utf8

namespace FlatScript

structure Machine where
  environment : Environment := {}
  output : Output := {}

/-- Steps that change the machine and end in a result or an error; an error keeps the changes. -/
abbrev Eval := ExceptT RuntimeError (StateM Machine)

def maxCallDepth : Nat := 128

def lookupVariable (name : String) : Eval Value := return (← get).environment.get name

def setVariable (name : String) (value : Value) : Eval Unit :=
  modify fun m => { m with environment := m.environment.set name value }

def writeOutput (text : String) : Eval Unit := do
  let (fits, output) := (← get).output.write text
  modify fun m => { m with output }
  if fits then return
  throw .outputFull

def runCommand (shell : Shell) (command : String) : Value :=
  if '\x00' ∈ command.toList then .error "nul byte found in provided data"
  else
    match shell command with
    | .error reason => .error reason
    | .ok outcome =>
      if outcome.status = .exited 0 then
        let isLineBreak (c : Char) := c == '\n' || c == '\r'
        .string (.ofList (Text.trimEnd isLineBreak (Text.ofBytes outcome.output).toList))
      else
        let errors := (Text.ofBytes outcome.errors).toList
        let complaint := String.ofList (Text.trimEnd Text.isBlank errors)
        .error s!"'{command}' exited with {outcome.status.text}: {complaint}"

namespace Builtin

def runPrint (args : List Value) : Eval Value := do
  writeOutput (" ".intercalate (args.map Value.text) ++ "\n")
  return .int 0

def runPrintf (args : List Value) : Eval Value := do
  match args with
  | [] => writeOutput "\n"
  | template :: values => writeOutput (formatTemplate template.text values)
  return .int 0

def runExec (shell : Shell) (args : List Value) : Eval Value :=
  match args with
  | [command] => return runCommand shell command.text
  | args => throw (.builtinArity .exec 1 args.length)

def run (shell : Shell) : Builtin → List Value → Eval Value
  | .print => runPrint
  | .printf => runPrintf
  | .exec => runExec shell

end Builtin

def Operator.assigned (op : Operator) (current value : Value) : Except RuntimeError Value :=
  match op.base? with
  | some base => base.apply current value
  | none =>
    if op = .assign then .ok value
    else .error (.unsupportedOperation op current.type value.type)

def assignVariable (op : Operator) (name : String) (value : Value) : Eval Value := do
  let stored ← op.assigned (← lookupVariable name) value
  setVariable name stored
  return stored

section

variable (shell : Shell) (invoke : NodeId → String → Eval Value)

mutual

/-- Evaluates an expression; `invoke` runs the calls of declared functions, the arguments of which
are not evaluated. -/
def Expr.eval : Expr → Eval Value
  | .string s => return .string s
  | .integer n => return .int n
  | .decimal x => return .float x
  | .boolean b => return .bool b
  | .null => return .nil
  | .variable _ name => lookupVariable name
  | .call id name args =>
    match Builtin.ofName? name with
    | some builtin => do builtin.run shell (← Expr.evalAll args)
    | none => invoke id name
  | .externalCall module function _ => throw (.externalCall module function)
  | .binary op left right =>
    if op.isAssignment then
      match left with
      | .variable _ name => do assignVariable op name (← right.eval)
      | _ => throw (.invalidAssignmentTarget op)
    else do
      let l ← left.eval
      let r ← right.eval
      op.apply l r

def Expr.evalAll : List Expr → Eval (List Value)
  | [] => return []
  | e :: es => do
    let value ← e.eval
    let values ← Expr.evalAll es
    return value :: values

end

def Statement.eval : Statement → Eval Value
  | .variable name _ (some e) => do
    let value ← e.eval shell invoke
    setVariable name value
    return value
  | .expression e => e.eval shell invoke
  | .importFile _ | .function _ _ | .variable _ _ none => return .nil

/-- The value of a list of statements is that of the last one. -/
def Statement.evalAll (statements : List Statement) : Eval Value :=
  statements.foldlM (fun _ s => s.eval shell invoke) .nil

end

/-- Calls the function that the call of number `id` is linked to, with `calls` calls left. -/
def Resolution.invoke (r : Resolution) (shell : Shell) (calls : Nat) (id : NodeId) (name : String) :
    Eval Value :=
  match r.functionFor? id with
  | none => throw (.unresolvedCall name)
  | some body =>
    match calls with
    | 0 => throw (.callDepthExceeded name maxCallDepth)
    | calls + 1 => Statement.evalAll shell (r.invoke shell calls) body

def Program.run (p : Program) (shell : Shell) (r : Resolution) (m : Machine) :
    Except RuntimeError Value × Machine :=
  (Statement.evalAll shell (r.invoke shell maxCallDepth) p.statements).run m

end FlatScript
