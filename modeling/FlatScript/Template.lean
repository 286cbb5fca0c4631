import FlatScript.Value

namespace FlatScript

inductive Verb
  | v
  | s
  | d
  | f
  | t
deriving DecidableEq, Repr

namespace Verb

def letter : Verb → Char
  | v => 'v'
  | s => 's'
  | d => 'd'
  | f => 'f'
  | t => 't'

def ofLetter? (c : Char) : Option Verb :=
  if c = 'v' then some v
  else if c = 's' then some s
  else if c = 'd' then some d
  else if c = 'f' then some f
  else if c = 't' then some t
  else none

/-- All verbs write a value as its text, but `%f` gives numbers six places. -/
def write (verb : Verb) (value : Value) : String :=
  match verb, value with
  | f, .float x => Single.writeFixed x
  | f, .int n => writeFixedInt n
  | _, value => value.text

end Verb

namespace Template

inductive Segment
  | literal (c : Char)
  | verb (verb : Verb)
deriving DecidableEq, Repr

/-- A percent sign that neither a percent sign nor a verb follows stands for itself. -/
def segments : List Char → List Segment
  | [] => []
  | '%' :: c :: cs =>
    if c = '%' then .literal '%' :: segments cs
    else
      match Verb.ofLetter? c with
      | some verb => .verb verb :: segments cs
      | none => .literal '%' :: segments (c :: cs)
  | c :: cs => .literal c :: segments cs

def writeExtra : List Value → String
  | [] => ""
  | values =>
    let entry (value : Value) : String := value.type.name ++ "=" ++ value.text
    "%!(EXTRA " ++ ", ".intercalate (values.map entry) ++ ")"

def fill : List Segment → List Value → String
  | [], values => writeExtra values
  | .literal c :: segments, values => c.toString ++ fill segments values
  | .verb verb :: segments, value :: values => verb.write value ++ fill segments values
  | .verb verb :: segments, [] =>
    "%!" ++ verb.letter.toString ++ "(MISSING)" ++ fill segments []

end Template

def formatTemplate (template : String) (values : List Value) : String :=
  Template.fill (Template.segments template.toList) values

end FlatScript
