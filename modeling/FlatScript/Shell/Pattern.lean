import FlatScript.Shell.Number

namespace FlatScript.Shell

structure Glyph where
  char : Char
  literal : Bool
deriving DecidableEq, Repr

abbrev Pattern := List Glyph

def characterClass? (name : String) : Option (Char → Bool) :=
  match name with
  | "alpha" => some Char.isAlpha
  | "digit" => some Char.isDigit
  | "alnum" => some Char.isAlphanum
  | "upper" => some Char.isUpper
  | "lower" => some Char.isLower
  | "space" => some isSpace
  | "blank" => some fun c => c == ' ' || c == '\t'
  | "cntrl" => some fun c => c.toNat < 32 || c.toNat == 127
  | "print" => some fun c => 32 ≤ c.toNat && c.toNat < 127
  | "graph" => some fun c => 32 < c.toNat && c.toNat < 127
  | "punct" => some fun c => 32 < c.toNat && c.toNat < 127 && !c.isAlphanum
  | "xdigit" => some (isDigit 16)
  | _ => none

namespace Pattern

/-- The glyphs of a pattern in which a backslash that is not literal quotes what follows. -/
def ofGlyphs : List Glyph → Pattern
  | [] => []
  | [g] => [if g = ⟨'\\', false⟩ then ⟨'\\', true⟩ else g]
  | g :: h :: rest =>
    if g = ⟨'\\', false⟩ then ⟨h.char, true⟩ :: ofGlyphs rest else g :: ofGlyphs (h :: rest)

def rank (c : Char) : Int := if c.toNat < 128 then c.toNat else c.toNat - 256

def class? (pattern : Pattern) : Option ((Char → Bool) × Pattern) :=
  match pattern with
  | ⟨':', false⟩ :: rest => do
    let name := rest.takeWhile fun g => !g.literal && g.char.isAlpha
    let p ← characterClass? (.ofList (name.map (·.char)))
    match rest.drop name.length with
    | ⟨':', false⟩ :: ⟨']', false⟩ :: rest => some (p, rest)
    | _ => none
  | _ => none

/-- Whether `c` is in the member that begins with `first`, and the pattern behind that member. -/
def member (c : Char) (first : Glyph) (rest : Pattern) : Bool × Pattern :=
  match if first = ⟨'[', false⟩ then class? rest else none with
  | some (p, rest) => (p c, rest)
  | none =>
    match rest with
    | ⟨'-', false⟩ :: last :: behind =>
      if last = ⟨']', false⟩ then (c == first.char, rest)
      else (rank first.char ≤ rank c && rank c ≤ rank last.char, behind)
    | rest => (c == first.char, rest)

/-- Whether `c` is in a set, and the pattern behind the bracket that closes the set. The first
member may be such a bracket. -/
def set? (c : Char) : Nat → Bool → Pattern → Option (Bool × Pattern)
  | 0, _, _ | _, _, [] => none
  | fuel + 1, found, first :: rest =>
    let (hit, rest) := member c first rest
    match rest with
    | ⟨']', false⟩ :: rest => some (found || hit, rest)
    | rest => set? c fuel (found || hit) rest

/-- Whether `c` matches the pattern's first part, behind an open bracket, and the rest of the
pattern. A bracket that is never closed stands for itself. -/
def bracket? (c : Char) (pattern : Pattern) : Option Pattern :=
  let (negated, members) :=
    match pattern with
    | ⟨'!', false⟩ :: members => (true, members)
    | members => (false, members)
  match set? c members.length false members with
  | some (found, rest) => if found != negated then some rest else none
  | none => if c = '[' then some pattern else none

def matchAll : Nat → Pattern → Octets → Bool
  | _, [], text => text.isEmpty
  | 0, _ :: _, _ => false
  | fuel + 1, ⟨'*', false⟩ :: rest, text =>
    if matchAll fuel rest text then true
    else
      match text with
      | [] => false
      | _ :: text => matchAll fuel (⟨'*', false⟩ :: rest) text
  | _ + 1, _ :: _, [] => false
  | fuel + 1, ⟨'?', false⟩ :: rest, _ :: text => matchAll fuel rest text
  | fuel + 1, ⟨'[', false⟩ :: rest, c :: text =>
    match bracket? c rest with
    | some rest => matchAll fuel rest text
    | none => false
  | fuel + 1, g :: rest, c :: text => if g.char = c then matchAll fuel rest text else false

def isMatch (pattern : Pattern) (text : Octets) : Bool :=
  matchAll (pattern.length + text.length) pattern text

/-- The shortest or the longest count of characters that the pattern matches at the beginning of a
text, or at its end. A NUL, which stands between arguments, ends what is matched, and the longest
part at the end begins in front of the first one. -/
def findCount? (pattern : Pattern) (atEnd longest : Bool) (text : Octets) : Option Nat :=
  let counts := List.range (text.length + 1)
  let first (part : Octets) : Octets := part.takeWhile (· != '\x00')
  if atEnd ∧ longest then
    (counts.find? fun n => n ≤ (first text).length && isMatch pattern (first (text.drop n))).map
      (text.length - ·)
  else
    (if longest then counts.reverse else counts).find? fun n =>
      isMatch pattern (first (if atEnd then text.drop (text.length - n) else text.take n))

def trim (pattern : Pattern) (atEnd longest : Bool) (text : Octets) : Octets :=
  match findCount? pattern atEnd longest text with
  | some n => if atEnd then text.take (text.length - n) else text.drop n
  | none => text

end Pattern

end FlatScript.Shell
