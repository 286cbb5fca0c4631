import FlatScript.Token
import FlatScript.LexError

namespace FlatScript

inductive Piece
  | layout
  | unknown (c : Char)
  | token (kind : Token.Kind) (text : String)
  | fault (cause : LexError.Cause)
deriving DecidableEq, Repr

structure Cut where
  piece : Piece
  spelling : List Char
  rest : List Char
deriving DecidableEq, Repr

def isBlank (c : Char) : Bool := c == ' ' || c == '\t' || c == '\r' || c == '\n'

def separatorChars : List Char := ['(', ')', '{', '}', '[', ']', ',', ';', '?', '@', '#']

def operatorChars : List Char := ['+', '-', '*', '/', '%', '=', '!', '<', '>', '&', '|', '^', '~']

def operatorPairs : List (Char × Char) :=
  [('+', '+'), ('-', '-'), ('+', '='), ('-', '='), ('*', '='), ('/', '='), ('%', '='), ('&', '='),
    ('|', '='), ('^', '='), ('~', '='), ('=', '='), ('!', '='), ('<', '='), ('>', '='), ('<', '<'),
    ('>', '>'), ('&', '&'), ('|', '|'), ('=', '>')]

def splitAfterClose : List Char → Option (List Char × List Char)
  | [] => none
  | '*' :: '/' :: cs => some (['*', '/'], cs)
  | c :: cs => (splitAfterClose cs).map fun (comment, rest) => (c :: comment, rest)

namespace Cut

def word (cs : List Char) : Cut :=
  let word := cs.takeWhile isWordPart
  ⟨.token (.ofWord (.ofList word)) (.ofList word), word, cs.dropWhile isWordPart⟩

def string (cs : List Char) : Cut :=
  let text := cs.takeWhile (· != '"')
  match cs.dropWhile (· != '"') with
  | [] => ⟨.fault .unterminatedString, '"' :: text, []⟩
  | quote :: rest => ⟨.token .stringLiteral (.ofList text), '"' :: text ++ [quote], rest⟩

def fraction (whole cs : List Char) : Cut :=
  let text := whole ++ '.' :: cs.takeWhile Char.isDigit
  ⟨.token .decimalLiteral (.ofList text), text, cs.dropWhile Char.isDigit⟩

/-- A number is digits, with a fraction if a point follows them; of a number that begins with a
superfluous zero only that zero is taken. -/
def number (cs : List Char) : Cut :=
  match cs.takeWhile Char.isDigit, cs.dropWhile Char.isDigit with
  | '0' :: d :: ds, rest => ⟨.fault .leadingZero, ['0'], d :: ds ++ rest⟩
  | whole, '.' :: rest => fraction whole rest
  | whole, rest => ⟨.token .integerLiteral (.ofList whole), whole, rest⟩

def point : List Char → Cut
  | [] => ⟨.token .separator ".", ['.'], []⟩
  | c :: cs =>
    if c.isDigit then fraction [] (c :: cs) else ⟨.token .separator ".", ['.'], c :: cs⟩

def colon : List Char → Cut
  | ':' :: cs => ⟨.token .separator "::", [':', ':'], cs⟩
  | cs => ⟨.token .separator ":", [':'], cs⟩

def operator (c : Char) : List Char → Cut
  | [] => ⟨.token .operator (.ofList [c]), [c], []⟩
  | d :: cs =>
    if (c, d) ∈ operatorPairs then ⟨.token .operator (.ofList [c, d]), [c, d], cs⟩
    else ⟨.token .operator (.ofList [c]), [c], d :: cs⟩

def slash : List Char → Cut
  | '/' :: cs => ⟨.layout, '/' :: '/' :: cs.takeWhile (· != '\n'), cs.dropWhile (· != '\n')⟩
  | '*' :: cs =>
    match splitAfterClose cs with
    | none => ⟨.fault .unterminatedComment, '/' :: '*' :: cs, []⟩
    | some (comment, rest) => ⟨.layout, '/' :: '*' :: comment, rest⟩
  | cs => operator '/' cs

end Cut

def cut? : List Char → Option Cut
  | [] => none
  | c :: cs => some <|
    if isBlank c then ⟨.layout, [c], cs⟩
    else if isWordStart c then .word (c :: cs)
    else if c = '"' then .string cs
    else if c ∈ separatorChars then ⟨.token .separator (.ofList [c]), [c], cs⟩
    else if c = ':' then .colon cs
    else if c = '/' then .slash cs
    else if c.isDigit then .number (c :: cs)
    else if c = '.' then .point cs
    else if c ∈ operatorChars then .operator c cs
    else ⟨.unknown c, [c], cs⟩

/-- The rules by which a first piece is cut off a text, by the first character of the text. -/
inductive Cut.Rule : Char → List Char → Cut → Prop
  | blank {c : Char} {cs : List Char} (h : isBlank c = true) : Rule c cs ⟨.layout, [c], cs⟩
  | word {c : Char} {cs : List Char} (h : isWordStart c = true) : Rule c cs (.word (c :: cs))
  | string {cs : List Char} : Rule '"' cs (.string cs)
  | separator {c : Char} {cs : List Char} (h : c ∈ separatorChars) :
      Rule c cs ⟨.token .separator (.ofList [c]), [c], cs⟩
  | colon {cs : List Char} : Rule ':' cs (.colon cs)
  | slash {cs : List Char} : Rule '/' cs (.slash cs)
  | number {c : Char} {cs : List Char} (h : c.isDigit = true) : Rule c cs (.number (c :: cs))
  | point {cs : List Char} : Rule '.' cs (.point cs)
  | operator {c : Char} {cs : List Char} (h : c ∈ operatorChars) (hs : c ≠ '/') :
      Rule c cs (.operator c cs)
  | unknown {c : Char} {cs : List Char}
      (h : isBlank c = false ∧ isWordStart c = false ∧ c ≠ '"' ∧ c ∉ separatorChars ∧ c ≠ ':' ∧
        c.isDigit = false ∧ c ≠ '.' ∧ c ∉ operatorChars) : Rule c cs ⟨.unknown c, [c], cs⟩

theorem rule_of_cut {cs : List Char} {k : Cut} (h : cut? cs = some k) :
    ∃ c ds, cs = c :: ds ∧ Cut.Rule c ds k := by
  cases cs with
  | nil => simp [cut?] at h
  | cons c cs =>
    refine ⟨c, cs, rfl, ?_⟩
    simp only [cut?, Option.some.injEq] at h
    subst h
    split
    next hb => exact .blank hb
    next hb =>
    split
    next hw => exact .word hw
    next hw =>
    split
    next hq => exact hq ▸ .string
    next hq =>
    split
    next hs => exact .separator hs
    next hs =>
    split
    next hc => exact hc ▸ .colon
    next hc =>
    split
    next hl => exact hl ▸ .slash
    next hl =>
    split
    next hd => exact .number hd
    next hd =>
    split
    next hp => exact hp ▸ .point
    next hp =>
    split
    next ho => exact .operator ho hl
    next ho =>
      simp only [Bool.not_eq_true] at hb hw hd
      exact .unknown ⟨hb, hw, hq, hs, hc, hd, hp, ho⟩

theorem splitAfterClose_append {cs comment rest : List Char}
    (h : splitAfterClose cs = some (comment, rest)) : comment ++ rest = cs := by
  fun_induction splitAfterClose cs generalizing comment with
  | case1 => simp at h
  | case2 cs =>
    obtain ⟨rfl, rfl⟩ : _ ∧ _ := by simpa using h
    rfl
  | case3 c cs _ ih =>
    obtain ⟨⟨tail, rest'⟩, hs, ht⟩ := Option.map_eq_some_iff.1 h
    obtain ⟨rfl, rfl⟩ : _ ∧ _ := by simpa using ht
    simp [ih hs]

namespace Cut

theorem word_append (cs : List Char) : (word cs).spelling ++ (word cs).rest = cs :=
  List.takeWhile_append_dropWhile

theorem string_append (cs : List Char) : (string cs).spelling ++ (string cs).rest = '"' :: cs := by
  have h : cs.takeWhile (· != '"') ++ cs.dropWhile (· != '"') = cs :=
    List.takeWhile_append_dropWhile
  unfold string
  split
  next hr => simpa [hr] using h
  next quote rest hr => simpa [hr] using h

theorem fraction_append (whole cs : List Char) :
    (fraction whole cs).spelling ++ (fraction whole cs).rest = whole ++ '.' :: cs := by
  simp [fraction]

theorem number_append (cs : List Char) : (number cs).spelling ++ (number cs).rest = cs := by
  have h : cs.takeWhile Char.isDigit ++ cs.dropWhile Char.isDigit = cs :=
    List.takeWhile_append_dropWhile
  unfold number
  split
  next d ds hw => simpa [hw] using h
  next whole rest hr _ =>
    rw [fraction_append, ← hr]
    exact h
  next => exact h

theorem point_append (cs : List Char) : (point cs).spelling ++ (point cs).rest = '.' :: cs := by
  unfold point
  split
  next => rfl
  next c cs =>
    split
    · exact fraction_append [] (c :: cs)
    · rfl

theorem colon_append (cs : List Char) : (colon cs).spelling ++ (colon cs).rest = ':' :: cs := by
  unfold colon
  split <;> rfl

theorem operator_append (c : Char) (cs : List Char) :
    (operator c cs).spelling ++ (operator c cs).rest = c :: cs := by
  unfold operator
  split
  next => rfl
  next d cs => split <;> rfl

theorem slash_append (cs : List Char) : (slash cs).spelling ++ (slash cs).rest = '/' :: cs := by
  unfold slash
  split
  next cs => simp
  next cs =>
    split
    next => simp
    next comment rest hs => simp [splitAfterClose_append hs]
  next => exact operator_append '/' _

end Cut

theorem cut_append {cs : List Char} {k : Cut} (h : cut? cs = some k) :
    k.spelling ++ k.rest = cs := by
  obtain ⟨c, ds, rfl, hr⟩ := rule_of_cut h
  cases hr with
  | blank | separator | unknown => rfl
  | word => exact Cut.word_append _
  | string => exact Cut.string_append ds
  | colon => exact Cut.colon_append ds
  | slash => exact Cut.slash_append ds
  | number => exact Cut.number_append _
  | point => exact Cut.point_append ds
  | operator => exact Cut.operator_append c ds

namespace Cut

theorem word_spelling_ne_nil {c : Char} {cs : List Char} (h : isWordStart c = true) :
    (word (c :: cs)).spelling ≠ [] := by
  have hp : isWordPart c := by simp [isWordPart, h]
  simp [word, List.takeWhile_cons_of_pos hp]

theorem number_spelling_ne_nil {c : Char} {cs : List Char} (h : c.isDigit) :
    (number (c :: cs)).spelling ≠ [] := by
  unfold number
  split
  · simp
  · simp [fraction]
  · simp [List.takeWhile_cons_of_pos h]

theorem operator_spelling_ne_nil (c : Char) (cs : List Char) : (operator c cs).spelling ≠ [] := by
  unfold operator
  split
  · simp
  · split <;> simp

end Cut

theorem cut_spelling_ne_nil {cs : List Char} {k : Cut} (h : cut? cs = some k) :
    k.spelling ≠ [] := by
  obtain ⟨c, ds, rfl, hr⟩ := rule_of_cut h
  cases hr with
  | blank | separator | unknown => exact List.cons_ne_nil _ _
  | word hw => exact Cut.word_spelling_ne_nil hw
  | string =>
    unfold Cut.string
    split <;> simp
  | colon =>
    unfold Cut.colon
    split <;> simp
  | slash =>
    unfold Cut.slash
    split
    · simp
    · split <;> simp
    · exact Cut.operator_spelling_ne_nil _ _
  | number hd => exact Cut.number_spelling_ne_nil hd
  | point =>
    unfold Cut.point
    split
    · simp
    · split <;> simp [Cut.fraction]
  | operator => exact Cut.operator_spelling_ne_nil c ds

theorem cut_rest_length {cs : List Char} {k : Cut} (h : cut? cs = some k) :
    k.rest.length < cs.length := by
  have hl := congrArg List.length (cut_append h)
  have hs := List.length_pos_iff.2 (cut_spelling_ne_nil h)
  rw [List.length_append] at hl
  omega

end FlatScript
