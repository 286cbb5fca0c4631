import FlatScript.Shell.Escape
import FlatScript.Shell.Real

namespace FlatScript.Shell

inductive Count
  | number (n : Nat)
  | argument
deriving DecidableEq, Repr

structure Directive where
  flags : Octets
  width : Count
  precision? : Option Count
  letter : Char
deriving DecidableEq, Repr

inductive FormatItem
  | text (text : Octets)
  | directive (d : Directive)
  | invalid (complaint : String)
deriving DecidableEq, Repr

def directiveLetters : List Char := "bcsdiouxXaAeEfFgG".toList

def readCount : Octets → Count × Octets
  | '*' :: rest => (.argument, rest)
  | text => let (n, rest) := splitDigits 10 text; (.number n, rest)

def readDirective (text : Octets) : FormatItem × Octets :=
  let isFlag (c : Char) := "-+ 0#".contains c
  let flags := text.takeWhile isFlag
  let (width, rest) := readCount (text.dropWhile isFlag)
  let (precision?, rest) : Option Count × Octets :=
    match rest with
    | '.' :: rest => let (n, rest) := readCount rest; (some n, rest)
    | rest => (none, rest)
  match rest with
  | [] => (.invalid "missing format character", [])
  | letter :: rest =>
    if directiveLetters.contains letter then (.directive ⟨flags, width, precision?, letter⟩, rest)
    else
      let directive := '%' :: text.take (text.length - rest.length)
      (.invalid (.ofList directive ++ ": invalid directive"), [])

/-- Splits a format at its directives; `before` holds the items in front, the last one first. -/
def readFormat : Nat → List FormatItem → Octets → List FormatItem
  | 0, before, _ => before.reverse
  | fuel + 1, before, text =>
    match text with
    | [] => before.reverse
    | '%' :: '%' :: rest => readFormat fuel (.text ['%'] :: before) rest
    | '%' :: rest =>
      let (item, rest) := readDirective rest
      readFormat fuel (item :: before) rest
    | '\\' :: rest =>
      let (c, rest) := splitEscape .format rest
      readFormat fuel (.text [c] :: before) rest
    | text =>
      let isPlain (c : Char) := c != '%' && c != '\\'
      readFormat fuel (.text (text.takeWhile isPlain) :: before) (text.dropWhile isPlain)

structure Filling where
  output : List Octets := []
  arguments : List Octets := []
  complaints : List String := []
  isOver : Bool := false
  failure? : Option String := none

abbrev Fill := StateM Filling

namespace Fill

def emit (text : Octets) : Fill Unit := modify fun f => { f with output := text :: f.output }

def objectTo (arg : Octets) (complaint : String) : Fill Unit :=
  modify fun f => { f with complaints := (.ofList arg ++ ": " ++ complaint) :: f.complaints }

def next? : Fill (Option Octets) := do
  match (← get).arguments with
  | [] => return none
  | arg :: arguments =>
    modify fun f => { f with arguments }
    return some arg

def checkRest (arg rest : Octets) (outOfRange : Bool) : Fill Unit := do
  if !rest.isEmpty then
    objectTo arg (if rest.length = arg.length then "expected numeric value"
      else "not completely converted")
  else if outOfRange then objectTo arg "Numerical result out of range"

/-- Takes the next argument as a number: what `read` reads, or the byte behind a quotation mark. -/
def nextNumber (zero : α) (ofByte : Nat → α) (read : Octets → α × Octets × Bool) : Fill α := do
  match ← next? with
  | none => return zero
  | some arg =>
    match arg with
    | '\'' :: rest | '"' :: rest => return ofByte (rest.head?.elim 0 Char.toNat)
    | arg =>
      let (n, rest, outOfRange) := read arg
      checkRest arg rest outOfRange
      return n

def nextInteger : Fill Int :=
  nextNumber 0 (fun n => (n : Int)) fun arg =>
    match splitInteger? arg with
    | some (n, rest) => (clamp n, rest, !fits n)
    | none => (0, arg, false)

def nextNatural : Fill Nat :=
  nextNumber 0 id fun arg =>
    match splitInteger? arg with
    | some (n, rest) =>
      if n.natAbs < Nat.pow 2 64 then ((n % Int.pow 2 64).toNat, rest, false)
      else (Nat.pow 2 64 - 1, rest, true)
    | none => (0, arg, false)

def nextReal : Fill Real :=
  let natural (n : Nat) : Real := { magnitude := .finite (n * Real.one) }
  nextNumber {} natural fun arg =>
    match Real.read? arg with
    | some reading => (reading.real, reading.rest, reading.outOfRange)
    | none => ({}, arg, false)

end Fill

structure Conversion where
  flags : Octets
  width : Nat
  precision? : Option Nat
  letter : Char

namespace Conversion

def hasFlag (c : Conversion) (flag : Char) : Bool := c.flags.contains flag

/-- Fills the width: with zeros behind the mark in front if `withZeros`, else with blanks. -/
def pad (c : Conversion) (withZeros : Bool) (mark text : Octets) : Octets :=
  let count := c.width - mark.length - text.length
  if c.hasFlag '-' then mark ++ text ++ List.replicate count ' '
  else if withZeros && c.hasFlag '0' then mark ++ List.replicate count '0' ++ text
  else List.replicate count ' ' ++ mark ++ text

def signMark (c : Conversion) (isNegative : Bool) : Octets :=
  if isNegative then ['-'] else if c.hasFlag '+' then ['+'] else if c.hasFlag ' ' then [' '] else []

/-- The digits of a whole number with the precision filled up; zero with the precision zero has
none. -/
def digits (c : Conversion) (base n : Nat) : Octets :=
  if n = 0 ∧ c.precision? = some 0 then []
  else Real.padDigits (c.precision?.getD 1) (Nat.toDigits base n)

def writeText (c : Conversion) (text : Octets) : Octets :=
  c.pad false [] (c.precision?.elim text text.take)

def writeInteger (c : Conversion) (n : Int) : Octets :=
  c.pad c.precision?.isNone (c.signMark (n < 0)) (c.digits 10 n.natAbs)

def writeNatural (c : Conversion) (n : Nat) : Octets :=
  let write (mark digits : Octets) : Octets := c.pad c.precision?.isNone mark digits
  let marked := c.hasFlag '#'
  match c.letter with
  | 'o' =>
    let digits := c.digits 8 n
    write [] (if marked && digits.head? != some '0' then '0' :: digits else digits)
  | 'x' => write (if marked && n != 0 then ['0', 'x'] else []) (c.digits 16 n)
  | 'X' =>
    write (if marked && n != 0 then ['0', 'X'] else []) ((c.digits 16 n).map Char.toUpper)
  | _ => write [] (c.digits 10 n)

def writeReal (c : Conversion) (r : Real) : Octets :=
  let adjust (text : Octets) : Octets :=
    if c.letter.isUpper then text.map Char.toUpper else text
  let mark := c.signMark r.isNegative
  let places := c.precision?.getD 6
  let marked := c.hasFlag '#'
  match r.magnitude with
  | .infinite => c.pad false mark (adjust ['i', 'n', 'f'])
  | .notANumber => c.pad false mark (adjust ['n', 'a', 'n'])
  | .finite units =>
    match c.letter.toLower with
    | 'e' => c.pad true mark (adjust (Real.writeScientific marked places units))
    | 'g' => c.pad true mark (adjust (Real.writeGeneral marked places units))
    | 'a' =>
      c.pad true (mark ++ adjust ['0', 'x'])
        (adjust (Real.writeHexadecimal marked c.precision? units))
    | _ => c.pad true mark (Real.writeFixed marked places units)

end Conversion

namespace Fill

/-- Takes the width and the precision from the arguments where the directive says so. A negative
width asks for the left side, a negative precision for none. -/
def settle (d : Directive) : Fill Conversion := do
  let take (count : Count) : Fill Int := do
    match count with
    | .number n => return n
    | .argument => nextInteger
  let width ← take d.width
  let precision ←
    match d.precision? with
    | none => pure (-1)
    | some count => take count
  return {
    flags := if width < 0 then '-' :: d.flags else d.flags
    width := width.natAbs
    precision? := if precision < 0 then none else some precision.toNat
    letter := d.letter }

def convert (d : Directive) : Fill Unit := do
  let c ← settle d
  match c.letter with
  | 's' => emit (c.writeText ((← next?).getD []))
  | 'b' =>
    let (text, stopped) := unescape ((← next?).getD [])
    emit (c.writeText text)
    if stopped then
      modify fun f => { f with isOver := true }
  | 'c' =>
    let arg := (← next?).getD []
    emit (c.pad false [] [arg.headD '\x00'])
  | 'd' | 'i' => emit (c.writeInteger (← nextInteger))
  | 'o' | 'u' | 'x' | 'X' => emit (c.writeNatural (← nextNatural))
  | _ => emit (c.writeReal (← nextReal))

def once : List FormatItem → Fill Unit
  | [] => return
  | item :: items => do
    if (← get).isOver then return
    match item with
    | .text text => emit text
    | .directive d => convert d
    | .invalid complaint => modify fun f => { f with isOver := true, failure? := some complaint }
    once items

def all (items : List FormatItem) : Nat → Fill Unit
  | 0 => return
  | fuel + 1 => do
    let before := (← get).arguments.length
    once items
    let f ← get
    if f.isOver || f.arguments.isEmpty || f.arguments.length = before then return
    all items fuel

end Fill

def fillFormat (format : Octets) (arguments : List Octets) : Filling :=
  let items := readFormat (format.length + 1) [] format
  ((Fill.all items (arguments.length + 1)).run { arguments }).2

end FlatScript.Shell
