import FlatScript.Shell.Number

namespace FlatScript.Shell

/-- Where escapes are resolved: in a format, or in a text, where an octal number may have a further
zero in front and `\c` ends all output. -/
inductive EscapeStyle
  | format
  | text
deriving DecidableEq, Repr

def escaped? (c : Char) : Option Char :=
  match c with
  | 'a' => some '\x07'
  | 'b' => some '\x08'
  | 'e' => some '\x1b'
  | 'f' => some '\x0c'
  | 'n' => some '\n'
  | 'r' => some '\r'
  | 't' => some '\t'
  | 'v' => some '\x0b'
  | '\\' => some '\\'
  | _ => none

def isPrintable (c : Char) : Bool := 32 ≤ c.toNat && c.toNat < 127

/-- A character as it is shown in a complaint: by an escape if it cannot be printed. -/
def escape (c : Char) : Octets :=
  let octal (n : Nat) : Char := .ofNat ('0'.toNat + n % 8)
  match "abfnrtv\\".toList.find? (escaped? · == some c) with
  | some letter => ['\\', letter]
  | none =>
    if isPrintable c then [c]
    else ['\\', octal (c.toNat / 64), octal (c.toNat / 8), octal c.toNat]

def escapeAll (text : Octets) : Octets := text.flatMap escape

def inQuotes (text : Octets) : Octets :=
  '\'' :: text.flatMap (fun c => if c == '\'' then ['\\', c] else escape c) ++ ['\'']

/-- The name of a file as it is shown in a complaint, so that a shell reads it as one word. -/
def fileName (name : Octets) : Octets :=
  let isPlain (c : Char) : Bool := c.isAlphanum || "%+,-./@_".contains c
  let rec quoted (escaping : Bool) : Octets → Octets
    | [] => ['\'']
    | c :: cs =>
      if isPrintable c then
        (if escaping && c != '\'' then ['\'', '\''] else []) ++
          (if c = '\'' then ['\'', '\\', '\'', '\''] else [c]) ++ quoted false cs
      else (if escaping then [] else ['\'', '$', '\'']) ++ escape c ++ quoted true cs
  if !name.isEmpty && name.all isPlain then name
  else if name.contains '\'' && name.all fun c => isPlain c || c == ' ' || c == '\'' then
    '"' :: name ++ ['"']
  else '\'' :: quoted false name

def splitOctal (text : Octets) : Char × Octets :=
  let digits := (text.take 3).takeWhile (isDigit 8)
  (.ofNat ((splitDigits 8 digits).1 % 256), text.drop digits.length)

def splitEscape (style : EscapeStyle) (text : Octets) : Char × Octets :=
  match text with
  | [] => ('\\', [])
  | c :: rest =>
    match escaped? c with
    | some e => (e, rest)
    | none =>
      if style = .text ∧ c = '0' ∧ rest.head?.any (isDigit 8) then splitOctal rest
      else if isDigit 8 c then splitOctal text
      else ('\\', text)

/-- Resolves the escapes of a text; `before` is what stands in front of it, its last character
first. Tells whether all output ends with the text. -/
def resolveEscapes : Nat → Octets → Octets → Octets × Bool
  | 0, before, _ => (before.reverse, false)
  | fuel + 1, before, text =>
    match text with
    | [] => (before.reverse, false)
    | '\\' :: 'c' :: _ => (before.reverse, true)
    | '\\' :: text =>
      let (c, rest) := splitEscape .text text
      resolveEscapes fuel (c :: before) rest
    | c :: text => resolveEscapes fuel (c :: before) text

def unescape (text : Octets) : Octets × Bool := resolveEscapes (text.length + 1) [] text

def echo (args : List Octets) : Octets :=
  let (ending, args) :=
    match args with
    | ['-', 'n'] :: args => ([], args)
    | args => (['\n'], args)
  let (text, stopped) := unescape (joinWith [' '] args)
  if stopped then text else text ++ ending

end FlatScript.Shell
