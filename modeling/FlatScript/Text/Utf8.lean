namespace FlatScript.Text

def replacementChar : Char := '\ufffd'

/-- The ranges of the bytes that follow a first byte `b`, if a character can begin with it. -/
def followRanges? (b : Nat) : Option (List (Nat × Nat)) :=
  if b < 0x80 then some []
  else if b < 0xC2 then none
  else if b < 0xE0 then some [(0x80, 0xBF)]
  else if b = 0xE0 then some [(0xA0, 0xBF), (0x80, 0xBF)]
  else if b = 0xED then some [(0x80, 0x9F), (0x80, 0xBF)]
  else if b < 0xF0 then some [(0x80, 0xBF), (0x80, 0xBF)]
  else if b = 0xF0 then some [(0x90, 0xBF), (0x80, 0xBF), (0x80, 0xBF)]
  else if b < 0xF4 then some [(0x80, 0xBF), (0x80, 0xBF), (0x80, 0xBF)]
  else if b = 0xF4 then some [(0x80, 0x8F), (0x80, 0xBF), (0x80, 0xBF)]
  else none

def matchRanges : List (Nat × Nat) → List UInt8 → Nat
  | (first, last) :: ranges, b :: bs =>
    if first ≤ b.toNat ∧ b.toNat ≤ last then matchRanges ranges bs + 1 else 0
  | _, _ => 0

def leadingBits (follows b : Nat) : Nat := if follows = 0 then b else b % Nat.pow 2 (6 - follows)

/-- In place of each longest beginning of a character that is not carried on, and of each byte that
begins none, stands the replacement character. -/
def decode : List UInt8 → List Char
  | [] => []
  | b :: bs =>
    match followRanges? b.toNat with
    | none => replacementChar :: decode bs
    | some ranges =>
      let n := matchRanges ranges bs
      let c :=
        if n = ranges.length then
          .ofNat ((bs.take n).foldl (fun v b => v * 64 + b.toNat % 64) (leadingBits n b.toNat))
        else replacementChar
      c :: decode (bs.drop n)
termination_by bs => bs.length
decreasing_by
  · simp
  · simp only [List.length_drop, List.length_cons]
    omega

def ofBytes (bytes : ByteArray) : String := .ofList (decode bytes.toList)

end FlatScript.Text
