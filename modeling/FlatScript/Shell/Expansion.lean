import FlatScript.Shell.Arithmetic
import FlatScript.Shell.Field

namespace FlatScript.Shell

structure Expanding where
  divides : Bool := false
  quoted : Bool := false
  /-- Whether the word stands in the braces of a parameter; text in it is divided too. -/
  inBraces : Bool := false

def shownOptions (s : State) : Octets := "ubaCxnfe".toList.filter s.hasOption

/-- What stands between the arguments when all of them are expanded at once, `each` to a field of
its own if that can be. -/
def argumentSeparator (x : Expanding) (each : Bool) (s : State) : Octets :=
  let isSet := (s.value? "IFS".toList).isSome
  if x.divides && x.quoted && each then ['\x00']
  else if !isSet then [' ']
  else if x.divides && !x.quoted then ['\x00']
  else s.separators.take 1

def parameter? (x : Expanding) (s : State) (name : Octets) : Option Octets :=
  match name with
  | ['?'] => some (decimal s.status)
  | ['#'] => some (decimal s.arguments.length)
  | ['@'] => some (joinWith (argumentSeparator x true s) s.arguments)
  | ['*'] => some (joinWith (argumentSeparator x false s) s.arguments)
  | ['$'] => some ['1']
  | ['!'] => s.jobs.head?.map fun (job, _) => decimal job
  | ['-'] => some (shownOptions s)
  | name =>
    if name.all Char.isDigit then
      match (splitDigits 10 name).1 with
      | 0 => some ['s', 'h']
      | n + 1 => s.arguments[n]?
    else s.value? name

def unsetComplaint (name : Octets) (orNull : Bool) (message : Octets) : String :=
  .ofList name ++ ": " ++
    if message.isEmpty then "parameter not set" ++ (if orNull then " or null" else "")
    else .ofList message

section

-- What runs a substitution and gives all that it wrote.
variable (substitute : List Command → Act Octets)

mutual

def expandPart (x : Expanding) : WordPart → Act (List Piece)
  | .mark => return [.mark]
  | .home => return [.text true .nowhere (((← get).value? "HOME".toList).getD ['~'])]
  | .text literal text =>
    return [.text literal (if x.inBraces && !x.quoted && !literal then .atSeparators else .nowhere)
      text]
  | .substitution body => do
    let text := (← substitute body).filter (· != '\x00')
    return [.text x.quoted (if x.quoted then .nowhere else .atSeparators)
      (dropTrailing (· == '\n') text)]
  | .arithmetic expression => do
    let n ← evalArithmetic (Piece.join (← expandParts {} false expression))
    return [.text x.quoted (if x.quoted then .nowhere else .atSeparators) (decimal n)]
  | .parameter name form orNull word => do
    if form = .invalid then fail "Bad substitution"
    let s ← get
    let divides := x.divides && form != .length && form != .alternative
    let value? := (parameter? { x with divides } s name).filter fun v => !(orNull && v.isEmpty)
    let division : Division :=
      if !x.quoted then .atSeparators
      else if name == ['@'] && !s.arguments.isEmpty then .atEnds
      else .nowhere
    let given (value : Octets) : List Piece := [.text x.quoted division value]
    let required : Act Octets :=
      match value? with
      | some value => return value
      | none =>
        if s.hasOption 'u' && !orNull then fail (unsetComplaint name false []) else return []
    match form with
    | .plain | .invalid => return given (← required)
    | .length => return given (decimal (← required).length)
    | .fallback =>
      match value? with
      | some value => return given value
      | none => expandParts { x with inBraces := true } false word
    | .alternative =>
      match value? with
      | some _ => expandParts { x with inBraces := true } false word
      | none => return given []
    | .assignment =>
      match value? with
      | some value => return given value
      | none =>
        setVariable name (Piece.join (← expandParts {} false word))
        return given ((parameter? x (← get) name).getD [])
    | .complaint =>
      match value? with
      | some value => return given value
      | none =>
        fail (unsetComplaint name orNull (Piece.join (← expandParts {} false word)))
    | .trimmed atEnd longest =>
      let isSet := value?.isSome
      let value ← required
      if !isSet then return []
      let pattern := Piece.toPattern (← expandParts {} false word)
      return given (pattern.trim atEnd longest value)

/-- Expands the parts of a word. A parameter for all arguments that alone is in quotes leaves no
field behind if there are no arguments. -/
def expandParts (x : Expanding) (inQuotes : Bool) : List WordPart → Act (List Piece)
  | [] => return []
  | .mark :: parts =>
    match inQuotes, parts with
    | false, .parameter ['@'] .plain false [] :: .mark :: parts => do
      let s ← get
      let value := (parameter? { x with quoted := true } s ['@']).getD []
      let division : Division := if s.arguments.isEmpty then .nowhere else .atEnds
      return .text true division value :: (← expandParts x false parts)
    | _, parts => return .mark :: (← expandParts x (!inQuotes) parts)
  | part :: parts => do
    let pieces ← expandPart { x with quoted := x.quoted || inQuotes } part
    return pieces ++ (← expandParts x inQuotes parts)

end

def expandText (word : Word) : Act Octets :=
  Piece.join <$> expandParts substitute {} false word

def expandPattern (word : Word) : Act Pattern :=
  Piece.toPattern <$> expandParts substitute {} false word

def expandDocument (word : Word) : Act Octets :=
  Piece.join <$> expandParts substitute { quoted := true } false word

def expandFields (word : Word) : Act (List Octets) := do
  let pieces ← expandParts substitute { divides := true } false word
  return splitFields (← get).separators none pieces

end

end FlatScript.Shell
