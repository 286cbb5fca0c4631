import FlatScript.Shell.Escape
import FlatScript.Shell.Pattern

namespace FlatScript.Shell

inductive TranslationError
  | option (complaint : String)
  | noOperand
  /-- A second operand is missing behind `operand`; `purpose` tells what both are for. -/
  | lonelyOperand (operand : Octets) (purpose : String)
  | extraOperand (operand : Octets)
  | extraOperandToDelete (operand : Octets)
  | emptyClass
  | unknownClass (name : Octets)
  | emptyEquivalence
  | longEquivalence (text : Octets)
  | repeatCount (text : Octets)
  | reversedRange (first last : Char)
  | fillerInFirst
  | secondFiller
  | fillerWithoutUse
  | equivalenceInSecond
  | classInSecond
  | classAtEnd
  | emptySecond
  | misaligned
  | manyImages

namespace TranslationError

def message : TranslationError → Octets
  | .option complaint => (complaint ++ tryHelp).toList
  | .noOperand => octets ("missing operand" ++ tryHelp)
  | .lonelyOperand operand purpose =>
    octets "missing operand after " ++ inQuotes operand ++
      octets ("\nTwo strings must be given when " ++ purpose ++ "." ++ tryHelp)
  | .extraOperand operand => octets "extra operand " ++ inQuotes operand ++ octets tryHelp
  | .extraOperandToDelete operand =>
    octets "extra operand " ++ inQuotes operand ++
      octets ("\nOnly one string may be given when deleting without squeezing repeats." ++ tryHelp)
  | .emptyClass => octets "missing character class name '[::]'"
  | .unknownClass name => octets "invalid character class " ++ inQuotes (escapeAll name)
  | .emptyEquivalence => octets "missing equivalence class character '[==]'"
  | .longEquivalence text =>
    escapeAll text ++ octets ": equivalence class operand must be a single character"
  | .repeatCount text =>
    octets "invalid repeat count " ++ inQuotes (escapeAll text) ++ octets " in [c*n] construct"
  | .reversedRange first last =>
    octets "range-endpoints of '" ++ escape first ++ '-' :: escape last ++
      octets "' are in reverse collating sequence order"
  | .fillerInFirst => octets "the [c*] repeat construct may not appear in string1"
  | .secondFiller => octets "only one [c*] repeat construct may appear in string2"
  | .fillerWithoutUse => octets "the [c*] construct may appear in string2 only when translating"
  | .equivalenceInSecond =>
    octets "[=c=] expressions may not appear in string2 when translating"
  | .classInSecond =>
    octets "when translating, the only character classes that may appear in\n" ++
      octets "string2 are 'upper' and 'lower'"
  | .classAtEnd =>
    octets "when translating with string1 longer than string2,\n" ++
      octets "the latter string must not end with a character class"
  | .emptySecond => octets "when not truncating set1, string2 must be non-empty"
  | .misaligned => octets "misaligned [:upper:] and/or [:lower:] construct"
  | .manyImages =>
    octets "when translating with complemented character classes,\n" ++
      octets "string2 must map all characters in the domain to one"
where
  tryHelp : String := "\nTry 'tr --help' for more information."

end TranslationError

inductive CharSetKind
  | plain
  | lower
  | upper
  | otherClass
  | equivalence
  | filler
deriving DecidableEq, Repr

structure CharSetPart where
  kind : CharSetKind
  chars : Octets
deriving Repr

abbrev CharSet := List CharSetPart

namespace CharSet

def allChars : Octets := (List.range 256).map Char.ofNat

def glyphs : Nat → Octets → List Glyph
  | 0, _ => []
  | fuel + 1, text =>
    match text with
    | [] => []
    | ['\\'] => [⟨'\\', false⟩]
    | '\\' :: c :: rest =>
      match if c == 'e' then none else escaped? c with
      | some e => ⟨e, true⟩ :: glyphs fuel rest
      | none =>
        if isDigit 8 c then
          let digits := ((c :: rest).take 3).takeWhile (isDigit 8)
          let digits := if (splitDigits 8 digits).1 < 256 then digits else digits.take 2
          ⟨.ofNat (splitDigits 8 digits).1, true⟩ :: glyphs fuel ((c :: rest).drop digits.length)
        else ⟨c, true⟩ :: glyphs fuel rest
    | c :: rest => ⟨c, false⟩ :: glyphs fuel rest

/-- What stands in front of a character and the bracket behind it, and what is behind both. -/
def splitClosing? (c : Char) : List Glyph → Option (Octets × List Glyph)
  | g :: h :: rest =>
    if g = ⟨c, false⟩ ∧ h = ⟨']', false⟩ then some ([], rest)
    else (splitClosing? c (h :: rest)).map fun (inside, rest) => (g.char :: inside, rest)
  | _ => none

abbrev Check := Except TranslationError

/-- The number that says how often a character is repeated; none, and zero, for as often as it is
needed. -/
def repetition? (digits : Octets) : Check (Option Nat) :=
  let base := if digits.head? == some '0' then 8 else 10
  if digits.isEmpty then .ok none
  else if digits.all (isDigit base) then
    let n := (splitDigits base digits).1
    if n < Nat.pow 2 31 then .ok (if n = 0 then none else some n) else .error (.repeatCount digits)
  else .error (.repeatCount digits)

def readRepetition? (gs : List Glyph) : Check (Option (CharSetPart × List Glyph)) :=
  match gs with
  | c :: ⟨'*', false⟩ :: rest =>
    let digits := rest.takeWhile fun g => !g.literal && g.char != ']'
    match rest.drop digits.length with
    | ⟨']', false⟩ :: rest => do
      match ← repetition? (digits.map (·.char)) with
      | none => return some (⟨.filler, [c.char]⟩, rest)
      | some n => return some (⟨.plain, List.replicate n c.char⟩, rest)
    | _ => .ok none
  | _ => .ok none

def ofClass (name : String) (p : Char → Bool) : CharSetPart :=
  let kind : CharSetKind :=
    if name = "lower" then .lower else if name = "upper" then .upper else .otherClass
  ⟨kind, allChars.filter p⟩

/-- Reads a class, a character with its equivalents, or a repetition, behind a bracket. -/
def readBracketed? (gs : List Glyph) : Check (Option (CharSetPart × List Glyph)) :=
  let orRepetition (complaint : TranslationError) : Check (Option (CharSetPart × List Glyph)) := do
    match ← readRepetition? gs with
    | some part => return some part
    | none => .error complaint
  match gs with
  | ⟨':', false⟩ :: rest =>
    match splitClosing? ':' rest with
    | some ([], _) => .error .emptyClass
    | some (name, behind) =>
      match characterClass? (.ofList name) with
      | some p => .ok (some (ofClass (.ofList name) p, behind))
      | none => orRepetition (.unknownClass name)
    | none => readRepetition? gs
  | ⟨'=', false⟩ :: rest =>
    match splitClosing? '=' rest with
    | some ([], _) => .error .emptyEquivalence
    | some ([c], behind) => .ok (some (⟨.equivalence, [c]⟩, behind))
    | some (text, _) => orRepetition (.longEquivalence text)
    | none => readRepetition? gs
  | gs => readRepetition? gs

def readParts : Nat → List Glyph → Check CharSet
  | 0, _ => return []
  | fuel + 1, gs => do
    let bracketed? ←
      match gs with
      | ⟨'[', false⟩ :: rest => if 2 ≤ rest.length then readBracketed? rest else pure none
      | _ => pure none
    match bracketed?, gs with
    | some (part, rest), _ => return part :: (← readParts fuel rest)
    | none, first :: ⟨'-', false⟩ :: last :: rest =>
      if last.char < first.char then throw (.reversedRange first.char last.char)
      let chars := allChars.filter fun c => first.char ≤ c && c ≤ last.char
      return ⟨.plain, chars⟩ :: (← readParts fuel rest)
    | none, c :: rest => return ⟨.plain, [c.char]⟩ :: (← readParts fuel rest)
    | none, [] => return []

def ofText (text : Octets) : Check CharSet :=
  readParts (text.length + 1) (glyphs text.length text)

def chars (set : CharSet) : Octets :=
  set.flatMap fun part => if part.kind = .filler then [] else part.chars

def hasKind (set : CharSet) (kind : CharSetKind) : Bool := set.any (·.kind == kind)

def fill (set : CharSet) (n : Nat) : CharSet :=
  set.map fun part =>
    if part.kind = .filler then
      ⟨if n = 0 then .filler else .plain, part.chars.flatMap (List.replicate n)⟩
    else part

/-- Lays two sets side by side: the pairs of characters that stand next to each other. Where the
second one has a class of letters, the first one must have such a class too; these are laid side by
side as a whole, each as one character. -/
def pairs : Nat → CharSet → CharSet → Check (List (Octets × Octets))
  | 0, _, _ => return []
  | fuel + 1, first, second => do
    let isCase (part : CharSetPart) : Bool := part.kind == .lower || part.kind == .upper
    match first, second with
    | ⟨.filler, _⟩ :: first, second => pairs fuel first second
    | first, ⟨.filler, _⟩ :: second => pairs fuel first second
    | ⟨_, []⟩ :: first, second => pairs fuel first second
    | first, ⟨_, []⟩ :: second => pairs fuel first second
    | a :: first, b :: second =>
      if isCase b then
        if isCase a then
          return (a.chars, b.chars) :: (← pairs fuel first second)
        throw .misaligned
      let rest (part : CharSetPart) : CharSetPart := ⟨.plain, part.chars.tail⟩
      return (a.chars.take 1, b.chars.take 1) ::
        (← pairs fuel (rest a :: first) (rest b :: second))
    | first, second =>
      if first.isEmpty && second.head?.any isCase then throw .misaligned
      return []

end CharSet

end FlatScript.Shell
