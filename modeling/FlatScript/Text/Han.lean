namespace FlatScript.Text

/-- First and last code point of each block of Han ideographs, in ascending order. -/
def hanRanges : List (Nat × Nat) :=
  [(0x2E80, 0x2E99), (0x2E9B, 0x2EF3), (0x2F00, 0x2FD5), (0x3005, 0x3005), (0x3007, 0x3007),
    (0x3021, 0x3029), (0x3038, 0x303B), (0x3400, 0x4DBF), (0x4E00, 0x9FFF), (0xF900, 0xFA6D),
    (0xFA70, 0xFAD9), (0x20000, 0x2A6DF), (0x2A700, 0x2EBE0), (0x2F800, 0x2FA1D),
    (0x30000, 0x323AF)]

def isHan (c : Char) : Bool :=
  hanRanges.any fun (first, last) => first ≤ c.toNat && c.toNat ≤ last

end FlatScript.Text
