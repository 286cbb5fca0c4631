namespace FlatScript

inductive CommandStatus
  | exited (code : Nat)
  | signaled (description : String)
deriving DecidableEq, Repr

def CommandStatus.text : CommandStatus → String
  | .exited code => "exit status: " ++ toString code
  | .signaled description => "signal: " ++ description

structure CommandOutcome where
  output : ByteArray := .empty
  errors : ByteArray := .empty
  status : CommandStatus := .exited 0

/-- A shell runs a command that gets no input, or tells why it cannot be started. -/
abbrev Shell := String → Except String CommandOutcome

end FlatScript
