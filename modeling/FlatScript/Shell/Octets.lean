namespace FlatScript.Shell

abbrev Octets := List Char

def octets (text : String) : Octets := text.toUTF8.toList.map fun b => .ofNat b.toNat

def ofOctets (text : Octets) : ByteArray := ⟨(text.map fun c => c.toNat.toUInt8).toArray⟩

def isBlank (c : Char) : Bool := c == ' ' || c == '\t' || c == '\n'

def isSpace (c : Char) : Bool := c == ' ' || ('\t' ≤ c && c ≤ '\r')

def isNameStart (c : Char) : Bool := c.isAlpha || c == '_'

def isNamePart (c : Char) : Bool := c.isAlphanum || c == '_'

def isName (text : Octets) : Bool := text.head?.any isNameStart && text.all isNamePart

def behind? (lead : String) (text : Octets) : Option Octets :=
  if lead.toList.isPrefixOf text then some (text.drop lead.length) else none

def joinWith (between : Octets) (texts : List Octets) : Octets := between.intercalate texts

def dropTrailing (p : Char → Bool) (text : Octets) : Octets :=
  (text.reverse.dropWhile p).reverse

def decimal (n : Int) : Octets := (toString n).toList

def quote (text : Octets) : Octets :=
  '\'' :: text.flatMap (fun c => if c == '\'' then "'\"'\"'".toList else [c]) ++ ['\'']

end FlatScript.Shell
