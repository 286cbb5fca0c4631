import FlatScript.Shell.CharSet
import FlatScript.Shell.LongOption

namespace FlatScript.Shell

structure Translation where
  complement : Bool := false
  delete : Bool := false
  squeeze : Bool := false
  truncate : Bool := false

namespace Translation

open CharSet (Check)

def ofLetter? (t : Translation) (c : Char) : Option Translation :=
  match c with
  | 'c' | 'C' => some { t with complement := true }
  | 'd' => some { t with delete := true }
  | 's' => some { t with squeeze := true }
  | 't' => some { t with truncate := true }
  | _ => none

def longOptions : List (String × Char) :=
  [("complement", 'c'), ("delete", 'd'), ("squeeze-repeats", 's'), ("truncate-set1", 't')]

def withLetter (t : Translation) (c : Char) : Check Translation :=
  match t.ofLetter? c with
  | some t => .ok t
  | none => .error (.option ("invalid option -- '" ++ String.singleton c ++ "'"))

def readOptions (t : Translation) : List Octets → Check (Translation × List Octets)
  | [] => return (t, [])
  | arg :: args => do
    match arg with
    | ['-', '-'] => return (t, args)
    | '-' :: '-' :: name =>
      readOptions (← t.withLetter (← (longOption longOptions name).mapError .option)) args
    | '-' :: c :: letters => readOptions (← (c :: letters).foldlM withLetter t) args
    | arg => return (t, arg :: args)

def squeezeRuns (p : Char → Bool) (text : Octets) : Octets :=
  (text.foldl
    (fun before c => if before.head? == some c && p c then before else c :: before) []).reverse

def extend (second : CharSet) (missing : Nat) : Check CharSet :=
  match second.getLast?, missing with
  | _, 0 => .ok second
  | none, _ => .error .emptySecond
  | some last, n =>
    match last.kind, last.chars.getLast? with
    | .plain, some c | .filler, some c | .equivalence, some c =>
      .ok (second ++ [⟨.plain, List.replicate n c⟩])
    | _, _ => .error .classAtEnd

def table (t : Translation) (first second : CharSet) :
    Check (List (Octets × Octets) × CharSet) := do
  let domain :=
    if t.complement then CharSet.allChars.filter (!first.chars.contains ·) else first.chars
  let second := second.fill (domain.length - second.chars.length)
  if second.hasKind .equivalence then throw .equivalenceInSecond
  if second.hasKind .otherClass then throw .classInSecond
  let hasClass := [.lower, .upper, .otherClass].any first.hasKind
  if t.complement then
    let second ←
      if t.truncate then pure second
      else extend second (domain.length - second.chars.length)
    let isOne :=
      second.chars.length = domain.length && second.chars.all (second.chars.head? == some ·)
    if hasClass && !isOne then throw .manyImages
    return ((domain.zip second.chars).map fun (c, d) => ([c], [d]), second)
  let fuel := domain.length + second.chars.length + first.length + second.length + 1
  let covered ← CharSet.pairs fuel first second
  let missing := domain.length - (covered.flatMap (·.1)).length
  let second ←
    if t.truncate then pure second
    else if missing = 0 then pure second
    else extend second missing
  return (← CharSet.pairs (fuel + missing) first second, second)

def translate (table : List (Octets × Octets)) (c : Char) : Char :=
  let pairs := table.flatMap fun (images, targets) => images.zip targets
  match pairs.reverse.find? (·.1 == c) with
  | some (_, d) => d
  | none => c

/-- The operands, of which there have to be two for some tasks and at most one for others. -/
def checkOperands (t : Translation) (operands : List Octets) : Check Unit :=
  match operands with
  | [] => throw .noOperand
  | [operand] =>
    if t.delete && t.squeeze then
      throw (.lonelyOperand operand "both deleting and squeezing repeats")
    else if !t.delete && !t.squeeze then throw (.lonelyOperand operand "translating")
    else return
  | [_, second] =>
    if t.delete && !t.squeeze then throw (.extraOperandToDelete second) else return
  | _ :: second :: third :: _ =>
    throw (.extraOperand (if t.delete && !t.squeeze then second else third))

def ofArguments (args : List Octets) : Check (Octets → Octets) := do
  let (t, operands) ← readOptions {} args
  checkOperands t operands
  let sets ← operands.mapM CharSet.ofText
  let first := sets.headD []
  if first.hasKind .filler then throw .fillerInFirst
  let isInFirst (c : Char) : Bool := first.chars.contains c != t.complement
  match sets.tail with
  | second :: _ =>
    if 1 < (second.filter (·.kind == .filler)).length then throw .secondFiller
    if t.delete then
      if second.hasKind .filler then throw .fillerWithoutUse
      return fun text => squeezeRuns second.chars.contains (text.filter (!isInFirst ·))
    let (table, second) ← t.table first second
    let images := CharSet.allChars.map (translate table)
    let image (c : Char) : Char := images.getD c.toNat c
    if t.squeeze then return fun text => squeezeRuns second.chars.contains (text.map image)
    return fun text => text.map image
  | [] =>
    return fun text => if t.delete then text.filter (!isInFirst ·) else squeezeRuns isInFirst text

end Translation

end FlatScript.Shell
