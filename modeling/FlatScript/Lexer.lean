import FlatScript.Cursor
import FlatScript.Token.Cut
import FlatScript.Token.Source
import FlatScript.Warning

namespace FlatScript

/-- What scanning for a token at some place found: the token or fault, the unknown characters on
the way to it, and the place behind it. -/
structure Scan where
  result : Except LexError Token
  warnings : List Warning
  cursor : Cursor

/-- Scans up to and including the next token or fault. -/
def Cursor.scan (c : Cursor) : Scan :=
  match h : cut? c.rest with
  | none => ⟨.ok (.eof c.location), [], c⟩
  | some k =>
    have := cut_rest_length h
    let behind := c.moveTo k.spelling k.rest
    match k.piece with
    | .token kind text => ⟨.ok ⟨kind, text, c.location⟩, [], behind⟩
    | .fault cause => ⟨.error ⟨cause, c.location⟩, [], behind⟩
    | .layout => behind.scan
    | .unknown ch =>
      let found := behind.scan
      { found with warnings := .unknownCharacter ch c.location :: found.warnings }
termination_by c.rest.length
decreasing_by all_goals exact this

theorem Cursor.scan_rest_length_le (c : Cursor) : c.scan.cursor.rest.length ≤ c.rest.length := by
  fun_induction Cursor.scan c with
  | case1 => exact Nat.le_refl _
  | case2 c k h => exact Nat.le_of_lt (cut_rest_length h)
  | case3 c k h => exact Nat.le_of_lt (cut_rest_length h)
  | case4 c k h _ _ _ ih => exact Nat.le_trans ih (Nat.le_of_lt (cut_rest_length h))
  | case5 c k h _ _ _ _ _ ih => exact Nat.le_trans ih (Nat.le_of_lt (cut_rest_length h))

theorem Cursor.scan_rest_length_lt {c : Cursor} {t : Token} (ht : c.scan.result = .ok t)
    (he : t.isEof = false) : c.scan.cursor.rest.length < c.rest.length := by
  fun_induction Cursor.scan c with
  | case1 =>
    obtain rfl : Token.eof _ = t := by simpa using ht
    simp [Token.eof, Token.isEof] at he
  | case2 c k h => exact cut_rest_length h
  | case3 c k h => exact cut_rest_length h
  | case4 c k h _ _ _ ih => exact Nat.lt_trans (ih ht) (cut_rest_length h)
  | case5 c k h _ _ _ _ _ ih => exact Nat.lt_trans (ih ht) (cut_rest_length h)

structure Script where
  cursor : Cursor
  warnings : List Warning := []

def Script.ofString (text : String) : Script := { cursor := .ofString text }

instance : TokenSource Script where
  scan s :=
    let found := s.cursor.scan
    (found.result, ⟨found.cursor, s.warnings ++ found.warnings⟩)
  size s := s.cursor.rest.length
  size_scan_le s := s.cursor.scan_rest_length_le
  size_scan_lt _ _ ht he := Cursor.scan_rest_length_lt ht he

abbrev Lexer := Lookahead Script

def Lexer.ofString (text : String) : Lexer := { source := .ofString text }

def tokenize (text : String) : Except LexError (List Token) × List Warning :=
  let (result, lexer) := (Lexer.ofString text).drain
  (result, lexer.source.warnings)

end FlatScript
