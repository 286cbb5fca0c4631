import FlatScript.Shell.Octets

namespace FlatScript.Shell

inductive ParameterForm
  | plain
  | length
  | fallback
  | assignment
  | alternative
  | complaint
  /-- The value without the part at its beginning or end that the word matches as a pattern, the
  shortest such part or the longest. -/
  | trimmed (atEnd longest : Bool)
  | invalid
deriving DecidableEq, Repr

inductive Opening
  | reading
  | writing
  | appending
  | updating
deriving DecidableEq, Repr

mutual

/-- A part of a word. Text in quotes, or behind a backslash, is literal. A mark stands where quotes
begin or end. -/
inductive WordPart
  | mark
  | home
  | text (literal : Bool) (text : Octets)
  | parameter (name : Octets) (form : ParameterForm) (orNull : Bool) (word : List WordPart)
  | substitution (body : List Command)
  | arithmetic (expression : List WordPart)

/-- A redirection of a descriptor: to a file, to where another descriptor leads, or to a document,
which has a number because its text comes only after the line that asks for it. -/
inductive Redirect
  | file (descriptor : Nat) (opening : Opening) (path : List WordPart)
  | duplicate (descriptor : Nat) (target : List WordPart)
  | document (descriptor : Nat) (number : Nat)

/-- A command. It tells on which line it begins where something may go wrong in it itself. -/
inductive Command
  | simple (assignments : List (Octets × List WordPart)) (words : List (List WordPart))
      (redirects : List Redirect)
  | onLine (line : Nat) (body : Command)
  | redirected (body : Command) (redirects : List Redirect)
  | negated (body : Command)
  | both (first second : Command)
  | either (first second : Command)
  | pipeline (stages : List Command)
  | background (body : Command)
  | group (body : List Command)
  | subshell (body : List Command) (redirects : List Redirect)
  | conditional (condition body otherwise : List Command)
  | loop (onFailure : Bool) (condition body : List Command)
  | forEach (name : Octets) (words : List (List WordPart)) (body : List Command)
  | choice (word : List WordPart) (branches : List (List (List WordPart) × List Command))
  | function (name : Octets) (body : Command)

end

abbrev Word := List WordPart

abbrev Document := Nat × Word

end FlatScript.Shell
