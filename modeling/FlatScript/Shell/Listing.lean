import FlatScript.Shell.LongOption

namespace FlatScript.Shell

structure Listing where
  numbersLines : Bool := false
  numbersFilled : Bool := false
  showsEnds : Bool := false
  showsTabs : Bool := false
  showsControls : Bool := false
  squeezesBlank : Bool := false

namespace Listing

def ofLetter? (l : Listing) (c : Char) : Option Listing :=
  match c with
  | 'n' => some { l with numbersLines := true }
  | 'b' => some { l with numbersFilled := true }
  | 's' => some { l with squeezesBlank := true }
  | 'u' => some l
  | 'v' => some { l with showsControls := true }
  | 'E' => some { l with showsEnds := true }
  | 'T' => some { l with showsTabs := true }
  | 'e' => some { l with showsEnds := true, showsControls := true }
  | 't' => some { l with showsTabs := true, showsControls := true }
  | 'A' => some { l with showsEnds := true, showsTabs := true, showsControls := true }
  | _ => none

def longOptions : List (String × Char) :=
  [("number-nonblank", 'b'), ("number", 'n'), ("squeeze-blank", 's'), ("show-nonprinting", 'v'),
    ("show-ends", 'E'), ("show-tabs", 'T'), ("show-all", 'A')]

def withLetter (l : Listing) (c : Char) : Except String Listing :=
  match l.ofLetter? c with
  | some l => .ok l
  | none => .error ("invalid option -- '" ++ String.singleton c ++ "'")

def readOptions (l : Listing) : List Octets → Except String (Listing × List Octets)
  | [] => return (l, [])
  | arg :: args => do
    match arg with
    | ['-', '-'] => return (l, args)
    | '-' :: '-' :: name => readOptions (← l.withLetter (← longOption longOptions name)) args
    | '-' :: c :: letters => readOptions (← (c :: letters).foldlM withLetter l) args
    | file =>
      let (l, files) ← readOptions l args
      return (l, file :: files)

def showControl (c : Char) : Octets :=
  let low (n : Nat) : Octets :=
    if n < 32 then ['^', .ofNat (n + 64)] else if n = 127 then ['^', '?'] else [.ofNat n]
  if c.toNat < 128 then low c.toNat else 'M' :: '-' :: low (c.toNat - 128)

def showChar (l : Listing) (c : Char) : Octets :=
  if c = '\t' then if l.showsTabs then ['^', 'I'] else [c]
  else if l.showsControls then showControl c
  else [c]

def showNumber (n : Nat) : Octets :=
  let digits := n.repr.toList
  List.replicate (6 - digits.length) ' ' ++ digits ++ ['\t']

def showLine (l : Listing) (line : Octets) : Octets :=
  let shown := line.flatMap l.showChar
  if l.showsEnds ∧ !l.showsControls ∧ line.getLast? = some '\r' then
    line.dropLast.flatMap l.showChar ++ ['^', 'M']
  else shown

/-- Shows lines, of which all but the last one are ended; the last one is what follows them. -/
def showLines (l : Listing) : Nat → Bool → List Octets → List Octets
  | _, _, [] => []
  | number, _, [last] =>
    if last.isEmpty then []
    else
      let numbered := l.numbersLines || l.numbersFilled
      [(if numbered then showNumber number else []) ++ last.flatMap l.showChar]
  | number, behindBlank, line :: lines =>
    if line.isEmpty && behindBlank && l.squeezesBlank then showLines l number true lines
    else
      let numbered := if l.numbersFilled then !line.isEmpty else l.numbersLines
      ((if numbered then showNumber number else []) ++ l.showLine line ++
          (if l.showsEnds then ['$', '\n'] else ['\n'])) ::
        showLines l (if numbered then number + 1 else number) line.isEmpty lines

def isPlain (l : Listing) : Bool :=
  !(l.numbersLines || l.numbersFilled || l.showsEnds || l.showsTabs || l.showsControls ||
    l.squeezesBlank)

def render (l : Listing) (text : Octets) : Octets :=
  if l.isPlain then text else (l.showLines 1 false (text.splitOn '\n')).flatten

end Listing

end FlatScript.Shell
