import FlatScript.Operator
import FlatScript.Token.Cut

namespace FlatScript

/-- A token without its place. -/
structure Lexeme where
  kind : Token.Kind
  text : String
deriving DecidableEq, Repr

def Token.lexeme (t : Token) : Lexeme := ⟨t.kind, t.text⟩

namespace Lexeme

def identifier (name : String) : Lexeme := ⟨.identifier, name⟩

def keyword (word : String) : Lexeme := ⟨.keyword, word⟩

def separator (text : String) : Lexeme := ⟨.separator, text⟩

def operator (op : Operator) : Lexeme := ⟨.operator, op.symbol⟩

def string (s : String) : Lexeme := ⟨.stringLiteral, s⟩

def token (l : Lexeme) (place : Location) : Token := ⟨l.kind, l.text, place⟩

/-- The characters of a lexeme in a text: a string literal has quotes around its text. -/
def spelling (l : Lexeme) : List Char :=
  match l.kind with
  | .stringLiteral => '"' :: l.text.toList ++ ['"']
  | _ => l.text.toList

end Lexeme

def IsWord : List Char → Prop
  | [] => False
  | c :: cs => isWordStart c = true ∧ ∀ d ∈ cs, isWordPart d = true

instance : DecidablePred IsWord
  | [] => inferInstanceAs (Decidable False)
  | _ :: cs => @instDecidableAnd _ _ _ (List.decidableBAll _ cs)

theorem IsWord.isWordPart {cs : List Char} (h : IsWord cs) : ∀ c ∈ cs, isWordPart c = true := by
  cases cs with
  | nil => exact nofun
  | cons c cs =>
    have hc : FlatScript.isWordPart c = true := by simp [FlatScript.isWordPart, h.1]
    exact List.forall_mem_cons.2 ⟨hc, h.2⟩

/-- A name: a word that is neither a keyword nor a literal. -/
def IsIdentifier (s : String) : Prop :=
  IsWord s.toList ∧ s ∉ keywords ∧ s ≠ "null" ∧ s ≠ "true" ∧ s ≠ "false"

def IsDigits (cs : List Char) : Prop := ∀ c ∈ cs, c.isDigit = true

def IsWhole (cs : List Char) : Prop :=
  cs ≠ [] ∧ IsDigits cs ∧ (cs.head? = some '0' → cs = ['0'])

def IsDecimal (cs : List Char) : Prop :=
  ∃ whole fraction, cs = whole ++ '.' :: fraction ∧ IsDigits fraction ∧
    (IsWhole whole ∨ whole = [] ∧ fraction ≠ [])

def Lexeme.IsProper (l : Lexeme) : Prop :=
  match l.kind with
  | .keyword => l.text ∈ keywords
  | .nullLiteral => l.text = "null"
  | .booleanLiteral => l.text = "true" ∨ l.text = "false"
  | .identifier => IsIdentifier l.text
  | .stringLiteral => '"' ∉ l.text.toList
  | .integerLiteral => IsWhole l.text.toList
  | .decimalLiteral => IsDecimal l.text.toList
  | .separator =>
    (∃ c ∈ separatorChars, l.text.toList = [c]) ∨ l.text = ":" ∨ l.text = "::" ∨ l.text = "."
  | .operator =>
    (∃ c ∈ operatorChars, l.text.toList = [c]) ∨
      ∃ c d, (c, d) ∈ operatorPairs ∧ l.text.toList = [c, d]
  | .eof => False

/-- Whether a lexeme would not end where it does if the character `c` stood behind it. -/
def Lexeme.GoesOn (l : Lexeme) (c : Char) : Prop :=
  match l.kind with
  | .keyword | .nullLiteral | .booleanLiteral | .identifier => isWordPart c = true
  | .integerLiteral => c.isDigit = true ∨ c = '.'
  | .decimalLiteral => c.isDigit = true
  | .separator => (l.text = "." ∧ c.isDigit = true) ∨ (l.text = ":" ∧ c = ':')
  | .operator =>
    (∃ d, l.text.toList = [d] ∧ (d, c) ∈ operatorPairs) ∨ (l.text = "/" ∧ (c = '/' ∨ c = '*'))
  | .stringLiteral | .eof => False

/-- Whether a lexeme ends where the text `behind` begins. -/
def Lexeme.EndsBefore (l : Lexeme) (behind : List Char) : Prop :=
  ∀ c ∈ behind.head?, ¬ l.GoesOn c

/-- A character that is no layout and begins no lexeme. -/
def IsUnknown (c : Char) : Prop :=
  isBlank c = false ∧ isWordStart c = false ∧ c ≠ '"' ∧ c ∉ separatorChars ∧ c ≠ ':' ∧
    c.isDigit = false ∧ c ≠ '.' ∧ c ∉ operatorChars

def HasClose (cs : List Char) : Prop := ['*', '/'] <:+: cs

/-- Layout in front of the text `behind`: blanks, comments up to the end of a line, comments up to
the first `*/` behind their opening, and unknown characters. -/
inductive Layout (behind : List Char) : List Char → Prop
  | nil : Layout behind []
  | blank {c : Char} {g : List Char} (hc : isBlank c = true) (hg : Layout behind g) :
      Layout behind (c :: g)
  | lineComment {body g : List Char} (hb : '\n' ∉ body)
      (he : ∀ c ∈ (g ++ behind).head?, c = '\n') (hg : Layout behind g) :
      Layout behind ('/' :: '/' :: body ++ g)
  | blockComment {body g : List Char} (hb : ¬ HasClose (body ++ ['*'])) (hg : Layout behind g) :
      Layout behind ('/' :: '*' :: body ++ ['*', '/'] ++ g)
  | unknown {c : Char} {g : List Char} (hc : IsUnknown c) (hg : Layout behind g) :
      Layout behind (c :: g)

/-- The place behind a text that begins a script: one line more than it has line breaks, and one
column more than there are characters behind the last of them. -/
def Location.endOf (cs : List Char) : Location :=
  ⟨cs.count '\n' + 1, (cs.reverse.takeWhile (· != '\n')).length + 1⟩

/-- `Tiled behind before cs ts`: between the text `before` it and the text `behind` it, the text
`cs` consists of lexemes and of layout around them, and `ts` are the lexemes with their places. -/
inductive Tiled (behind : List Char) : List Char → List Char → List Token → Prop
  | layout {before g : List Char} (hg : Layout behind g) : Tiled behind before g []
  | lexeme {before g cs : List Char} {l : Lexeme} {ts : List Token}
      (hg : Layout (l.spelling ++ cs ++ behind) g) (hp : l.IsProper)
      (he : l.EndsBefore (cs ++ behind)) (ht : Tiled behind (before ++ g ++ l.spelling) cs ts) :
      Tiled behind before (g ++ l.spelling ++ cs) (l.token (.endOf (before ++ g)) :: ts)

/-- The texts that begin with a fault: a quote without a second one, an opening of a comment
without a closing, or a zero in front of a digit. -/
def LexError.Cause.Begins (cause : LexError.Cause) (cs : List Char) : Prop :=
  match cause with
  | .unterminatedString => ∃ ds, cs = '"' :: ds ∧ '"' ∉ ds
  | .unterminatedComment => ∃ ds, cs = '/' :: '*' :: ds ∧ ¬ HasClose ds
  | .leadingZero => ∃ d ds, cs = '0' :: d :: ds ∧ d.isDigit = true

end FlatScript
