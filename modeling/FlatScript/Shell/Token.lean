import FlatScript.Shell.Syntax

namespace FlatScript.Shell

inductive Token
  | word (parts : Word)
  | redirection (descriptor : Option Nat) (symbol : String)
  | symbol (text : String)
  | newline
  | finish

structure Announcement where
  number : Nat
  mark : Octets
  literal : Bool
  indented : Bool

structure Reading where
  text : Octets
  line : Nat := 1
  ahead : Option Token := none
  announced : List Announcement := []
  document? : Option Announcement := none
  inMark : Bool := false
  documents : List Document := []
  nextDocument : Nat := 0

abbrev Read := ExceptT String (StateM Reading)

inductive Context
  | word
  | braces
  | quotes (inBraces : Bool)
  /-- In the braces of a parameter that is in quotes itself; `inner` tells whether there are quotes
  in these braces around the part. -/
  | quotedBraces (inner : Bool)
  | document
  | arithmetic (depth : Nat)
deriving DecidableEq

def reservedWords : List String :=
  ["!", "case", "do", "done", "elif", "else", "esac", "fi", "for", "if", "in", "then", "until",
    "while", "\x7b", "\x7d"]

def specialBuiltins : List String :=
  [":", ".", "break", "continue", "eval", "exec", "exit", "export", "local", "readonly", "return",
    "set", "shift", "times", "trap", "unset"]

def regularBuiltins : List String :=
  ["[", "command", "echo", "false", "getopts", "printf", "read", "test", "true", "type", "wait"]

namespace Token

def reserved? : Token → Option String
  | .word [.text false text] =>
    if reservedWords.contains (.ofList text) then some (.ofList text) else none
  | _ => none

def isReserved (t : Token) (word : String) : Bool := t.reserved? == some word

def isSymbol : Token → String → Bool
  | .symbol text, s => text == s
  | _, _ => false

def isNewline : Token → Bool
  | .newline => true
  | _ => false

def endsList (t : Token) : Bool :=
  match t with
  | .finish => true
  | .symbol text => text == ")" || text == ";;"
  | t =>
    match t.reserved? with
    | some w => ["do", "done", "elif", "else", "esac", "fi", "then", "\x7d"].contains w
    | none => false

def describe (t : Token) : String :=
  match t with
  | .redirection .. => "redirection"
  | .symbol text => "\"" ++ text ++ "\""
  | .newline => "newline"
  | .finish => "end of file"
  | .word _ =>
    match t.reserved? with
    | some w => "\"" ++ w ++ "\""
    | none => "word"

end Token

namespace Context

def isLiteral : Context → Bool
  | .word | .braces => false
  | _ => true

def inBraces : Context → Bool
  | .braces | .quotes true | .quotedBraces _ => true
  | _ => false

def isSpecial (inDocument : Bool) (x : Context) (c : Char) : Bool :=
  c == '\\' || c == '$' || c == '\x60' ||
    match x with
    | .word => "\n\t \"';&|<>()".contains c
    | .braces => c == '\'' || c == '"' || c == '\x7d' || inDocument && c == '\n'
    | .quotes _ => c == '"' || inDocument && c == '\n'
    | .quotedBraces _ => c == '"' || c == '\x7d' || inDocument && c == '\n'
    | .document => c == '\n'
    | .arithmetic _ => c == '(' || c == ')' || inDocument && c == '\n'

def complaint? : Context → Option String
  | .word | .document => none
  | .quotes _ | .quotedBraces _ => some "Unterminated quoted string"
  | .braces => some "Missing '\x7d'"
  | .arithmetic _ => some "Missing '))'"

end Context

def pushText (literal : Bool) (text : Octets) : Word → Word
  | .text l before :: parts =>
    if l = literal then .text l (before ++ text) :: parts
    else .text literal text :: .text l before :: parts
  | parts => .text literal text :: parts

/-- A word in which a tilde at the beginning, alone or in front of a slash, stands for the home
directory. -/
def readHome : Word → Word
  | [.text false ['~']] => [.home]
  | .text false ('~' :: '/' :: text) :: parts => .home :: .text false ('/' :: text) :: parts
  | word => word

def readHomes (word : Word) : Word :=
  match word with
  | [.text false text] =>
    let words := (text.splitOn ':').map fun t => readHome (if t.isEmpty then [] else [.text false t])
    List.intercalate [.text false [':']] words
  | word => readHome word

def assignment? : Word → Option (Octets × Word)
  | .text false text :: parts =>
    let name := text.takeWhile isNamePart
    match isName name, text.drop name.length with
    | true, ['='] => some (name, readHomes parts)
    | true, '=' :: value => some (name, readHomes (.text false value :: parts))
    | _, _ => none
  | _ => none

def markText (word : Word) : Octets × Bool :=
  word.foldl
    (fun (text, quoted) part =>
      match part with
      | .text literal t => (text ++ t, quoted || literal)
      | _ => (text, true))
    ([], false)

def everyArgument : Word := [.mark, .parameter ['@'] .plain false [], .mark]

namespace Reading

/-- Goes on with a text that stands behind as many further line breaks as `breaks` says. -/
def setText (breaks : Nat) (text : Octets) : Read Unit :=
  modify fun r => { r with text, line := r.line + breaks }

/-- The text behind joined lines, and how many line breaks there are in front of it. -/
def splitJoins (breaks : Nat) : Octets → Nat × Octets
  | '\\' :: '\n' :: text => splitJoins (breaks + 1) text
  | text => (breaks, text)

/-- The text behind blanks, joined lines and a comment, and how many line breaks there are in front
of it. -/
def splitBlanks (breaks : Nat) : Octets → Nat × Octets
  | ' ' :: text | '\t' :: text => splitBlanks breaks text
  | '\\' :: '\n' :: text => splitBlanks (breaks + 1) text
  | '#' :: text => (breaks, text.dropWhile (· != '\n'))
  | text => (breaks, text)

def skipJoins : Read Unit := do
  let (breaks, text) := splitJoins 0 (← get).text
  setText breaks text

def skipBlanks : Read Unit := do
  let (breaks, text) := splitBlanks 0 (← get).text
  setText breaks text

def peekChar : Read (Option Char) := do
  skipJoins
  return (← get).text.head?

def skipChar : Read Unit := do
  match (← get).text with
  | '\n' :: text => setText 1 text
  | text => setText 0 text.tail

def passChar (c : Char) : Read Bool := do
  if (← peekChar) = some c then
    skipChar
    return true
  return false

/-- Takes characters for as long as `p` says; joined lines between them do not count. -/
def takeChars (p : Char → Bool) : Read Octets := do
  let rec split (breaks : Nat) (taken : Octets) : Octets → Nat × Octets × Octets
    | '\\' :: '\n' :: text => split (breaks + 1) taken text
    | c :: text =>
      if p c then split (if c = '\n' then breaks + 1 else breaks) (c :: taken) text
      else (breaks, taken.reverse, c :: text)
    | [] => (breaks, taken.reverse, [])
  let (breaks, taken, rest) := split 0 [] (← get).text
  setText breaks rest
  return taken

/-- Begins a line, and tells whether it is the one that ends the document being read, which it
passes over. -/
def beginLine : Read Bool := do
  match (← get).document? with
  | none => return false
  | some d =>
    if !d.literal then skipJoins
    let text := (← get).text
    let text := if d.indented then text.dropWhile (· == '\t') else text
    setText 0 text
    let rest := text.drop d.mark.length
    if d.mark.isPrefixOf text ∧ (rest.isEmpty ∨ rest.head? = some '\n') then
      setText (rest.take 1).length rest.tail
      return true
    return false

def literalLines : Nat → Octets → Read Octets
  | 0, lines => return lines
  | fuel + 1, lines => do
    let ended ← beginLine
    let text := (← get).text
    if ended || text.isEmpty then return lines
    let line := text.takeWhile (· != '\n')
    let rest := text.drop line.length
    setText (rest.take 1).length rest.tail
    literalLines fuel (rest.take 1 ++ line.reverse ++ lines)

def announce (mark : Word) (indented : Bool) : Read Nat := do
  let r ← get
  let (text, literal) := markText mark
  let a : Announcement := ⟨r.nextDocument, text, literal, indented⟩
  set { r with announced := r.announced ++ [a], nextDocument := r.nextDocument + 1 }
  return a.number

def addDocument (number : Nat) (word : Word) : Read Unit :=
  modify fun r => { r with documents := (number, word) :: r.documents }

def emptyDocuments : Read Unit := do
  for a in (← get).announced do
    addDocument a.number []
  modify fun r => { r with announced := [] }

def readRedirection (descriptor : Option Nat) : Read Token := do
  let c := (← peekChar).getD ' '
  skipChar
  let behind := (← peekChar).getD ' '
  if (if c == '<' then "<&>" else ">|&").contains behind then
    skipChar
    let symbol : String := .ofList [c, behind]
    if symbol = "<<" then
      return .redirection descriptor (if ← passChar '-' then "<<-" else "<<")
    return .redirection descriptor symbol
  return .redirection descriptor (.ofList [c])

def unexpected (t : Token) (expected : String) : Read α :=
  throw (t.describe ++ " unexpected" ++
    if expected = "" then "" else " (expecting " ++ expected ++ ")")

end Reading

end FlatScript.Shell
