import FlatScript.Proofs.Agreement
import FlatScript.Proofs.Parsing

namespace FlatScript

/-! ### Lists of tokens -/

/-- A source that has nothing to give but its end: the end of input at some place, or a fault, again
and again. -/
inductive Ending
  | eof (place : Location)
  | fault (e : LexError)

def Ending.answer : Ending → Lookahead.Answer
  | .eof place => .ok (.eof place)
  | .fault e => .error e

instance : TokenSource Ending where
  scan e := (e.answer, e)
  size _ := 0
  size_scan_le _ := Nat.le_refl 0
  size_scan_lt e t ht he := by
    cases e with
    | eof place =>
      obtain rfl : Token.eof place = t := Except.ok.inj ht
      exact nomatch (he : true = false)
    | fault e => exact nomatch (ht : (Except.error e : Lookahead.Answer) = .ok t)

/-- The state of a parser that has the tokens in front of it, and behind them the end. -/
def ParserState.ofTokens (ts : List Token) (ending : Ending) : ParserState Ending :=
  { tokens := { source := ending, pending := ts } }

/-- Reads a list of tokens, the last one of which is the end of input and stays. -/
def Program.ofTokens (ts : List Token) : Except ParseError Program :=
  (Parser.program.run (.ofTokens ts (.eof ((ts.getLast?.map Token.location).getD .start)))).1

theorem ParserState.answer_ofTokens (ts : List Token) (ending : Ending) (k : Nat) :
    (ParserState.ofTokens ts ending).answer k =
      match ts[k]? with
      | some t => .ok t
      | none => ending.answer := by
  induction ts generalizing k with
  | nil =>
    rw [List.getElem?_nil]
    induction k with
    | zero => rfl
    | succ k ih => exact ih
  | cons t ts ih =>
    cases k with
    | zero => rfl
    | succ k => exact ih k

theorem ParserState.exists_answer_ofTokens (ts : List Token) (place : Location) (k : Nat) :
    ∃ t, (ParserState.ofTokens ts (.eof place)).answer k = .ok t := by
  rw [answer_ofTokens]
  split
  · exact ⟨_, rfl⟩
  · exact ⟨_, rfl⟩

/-! ### Tokens of a text -/

namespace Lexer

theorem answer_congr {l l' : Lexer} (h : l.next = l'.next) (k : Nat) :
    l.answer k = l'.answer k := by
  cases k with
  | zero => exact congrArg Prod.fst h
  | succ k => exact congrArg (fun r => r.2.answer k) h

theorem answer_of_tiled {behind before cs : List Char} {ts : List Token}
    (h : Tiled behind before cs ts) (ws : List Warning) :
    ∃ ws', ∀ k, (Lexer.between before (cs ++ behind) ws).answer k =
      match ts[k]? with
      | some t => .ok t
      | none => (Lexer.between (before ++ cs) behind ws').answer (k - ts.length) := by
  induction h generalizing ws with
  | layout hg =>
    obtain ⟨ws', hn⟩ := Lexer.next_layout hg _ ws
    exact ⟨ws', fun k => answer_congr hn k⟩
  | @lexeme before g cs l ts hg hp he _ ih =>
    obtain ⟨ws₁, hn⟩ := Lexer.next_layout hg before ws
    obtain ⟨ws', ha⟩ := ih ws₁
    have hl := Lexer.next_lexeme hp he (before ++ g) ws₁
    refine ⟨ws', fun k => ?_⟩
    have ht : g ++ l.spelling ++ cs ++ behind = g ++ (l.spelling ++ cs ++ behind) := by simp
    rw [ht, answer_congr hn, List.append_assoc l.spelling]
    cases k with
    | zero => exact congrArg Prod.fst hl
    | succ k =>
      rw [← Lookahead.answer_next, hl, ha k, List.length_cons, Nat.add_sub_add_right]
      simp

theorem answer_end (before : List Char) (ws : List Warning) (k : Nat) :
    (Lexer.between before [] ws).answer k = .ok (.eof (.endOf before)) := by
  have hn := Lexer.next_between before [] ws
  rw [Cursor.scan_nil, List.append_nil] at hn
  induction k with
  | zero => exact congrArg Prod.fst hn
  | succ k ih =>
    rw [← Lookahead.answer_next, hn]
    exact ih

theorem answer_fault {cause : LexError.Cause} {cs : List Char} (h : cause.Begins cs)
    (before : List Char) (ws : List Warning) :
    (Lexer.between before cs ws).answer 0 = .error ⟨cause, .endOf before⟩ := by
  obtain ⟨k, hk, hp⟩ := cut_of_begins h
  have hn := Lexer.next_between before cs ws
  rw [Cursor.scan_of_fault before hk hp] at hn
  exact congrArg Prod.fst hn

end Lexer

def Location.Before (l l' : Location) : Prop :=
  l.line < l'.line ∨ l.line = l'.line ∧ l.column < l'.column

namespace Location

theorem Before.trans {l l' l'' : Location} (h : l.Before l') (h' : l'.Before l'') :
    l.Before l'' := by
  unfold Before at *
  omega

theorem before_advance (l : Location) (c : Char) : l.Before (l.advance c) := by
  unfold advance
  split
  · exact .inl (Nat.lt_succ_self _)
  · exact .inr ⟨rfl, Nat.lt_succ_self _⟩

theorem before_past (l : Location) {cs : List Char} (h : cs ≠ []) : l.Before (l.past cs) := by
  induction cs generalizing l with
  | nil => exact absurd rfl h
  | cons c cs ih =>
    rw [past_cons]
    by_cases hc : cs = []
    · rw [hc, past_nil]
      exact l.before_advance c
    · exact (l.before_advance c).trans (ih _ hc)

end Location

theorem Lexeme.IsProper.spelling_ne_nil {l : Lexeme} (h : l.IsProper) : l.spelling ≠ [] := by
  have he : l.EndsBefore [] := fun c hc => by simp at hc
  exact cut_spelling_ne_nil (cut_lexeme h he)

theorem Tiled.before_endOf {behind before cs : List Char} {ts : List Token}
    (h : Tiled behind before cs ts) : ∀ t ∈ ts, t.location.Before (.endOf (before ++ cs)) := by
  induction h with
  | layout => simp
  | @lexeme before g cs l ts _ hp _ _ ih =>
    refine List.forall_mem_cons.2 ⟨?_, by simpa using ih⟩
    have hne : l.spelling ++ cs ≠ [] := fun h => hp.spelling_ne_nil (List.append_eq_nil_iff.1 h).1
    have hb := (Location.endOf (before ++ g)).before_past hne
    rw [Location.endOf_past] at hb
    simpa [Lexeme.token] using hb

/-! ### Texts and lists -/

namespace ParseError

def place : ParseError → Location
  | .lex e => e.location
  | .unexpectedToken _ _ l | .unexpectedEof _ l | .invalidLiteral _ _ l | .invalidImportPath _ _ l
  | .reservedKeyword _ l | .nestingTooDeep _ l => l

end ParseError

theorem Complaint.place_about (c : Complaint) (t : Token) : (c.about t).place = t.location := by
  cases c with
  | unexpected =>
    rw [about]
    split
    · rfl
    · rfl
  | _ => rfl

theorem Complaint.about_ne_lex (c : Complaint) (t : Token) (e : LexError) : c.about t ≠ .lex e := by
  cases c with
  | unexpected =>
    rw [about]
    split
    · simp
    · simp
  | _ => simp [about]

namespace Parser

variable {σ τ : Type} [TokenSource σ] [TokenSource τ] {α : Type}

theorem Agrees.fst_run_eq {s : ParserState σ} {s' : ParserState τ} {p : Parser σ α}
    {p' : Parser τ α} (h : Agrees s p p') (hid : s'.nextId = s.nextId)
    (ha : ∀ i, s'.answer i = s.answer i) : (p'.run s').1 = (p.run s).1 := by
  obtain ⟨k, v, h⟩ := h
  have hs : s.AlikeTo s' k := fun i hi => by
    obtain ⟨t, ht⟩ := h.taken i hi
    exact ⟨t, t, ht, by rw [ha, ht], rfl⟩
  have hc : v.Covers (s.answer k) (s'.answer k) := by
    rw [ha]
    exact .refl v _
  have hstop := h.agrees s' hid hs hc
  cases v with
  | accept a id =>
    obtain ⟨s₁, hr, -⟩ := h.stops
    obtain ⟨s₁', hr', -⟩ := hstop
    rw [hr, hr']
  | reject c =>
    have hr : (p.run s).1 = .error (c.error (s.answer k)) := h.stops
    have hr' : (p'.run s').1 = .error (c.error (s'.answer k)) := hstop
    rw [hr, hr', ha]

end Parser

theorem answer_of_tokenize {text : String} {ts : List Token} (h : (tokenize text).1 = .ok ts)
    (k : Nat) :
    (ParserState.ofTokens ts (.eof ((ts.getLast?.map Token.location).getD .start))).answer k =
      (ParserState.ofString text).answer k := by
  obtain ⟨us, rfl, ht⟩ := tokenize_eq_ok_iff.1 h
  obtain ⟨ws, ha⟩ := Lexer.answer_of_tiled ht []
  have hk := ha k
  rw [List.append_nil, Lexer.answer_end] at hk
  have hl : (us ++ [Token.eof (.endOf text.toList)]).getLast?.map Token.location =
      some (.endOf text.toList) := by simp [Token.eof]
  rw [hl, Option.getD_some, ParserState.answer_ofTokens]
  refine Eq.trans ?_ hk.symm
  by_cases hlt : k < us.length
  · rw [List.getElem?_append_left hlt, List.getElem?_eq_getElem hlt]
  · rw [List.getElem?_append_right (Nat.le_of_not_lt hlt),
      List.getElem?_eq_none (Nat.le_of_not_lt hlt)]
    cases k - us.length with
    | zero => rfl
    | succ n => rfl

/-- A text without tokens gives those in front of its fault, and then the fault. -/
theorem answer_of_tokenize_error {text : String} {e : LexError} (h : (tokenize text).1 = .error e) :
    ∃ ts : List Token, (∀ t ∈ ts, t.location.Before e.location) ∧
      (∀ k (hk : k < ts.length), (ParserState.ofString text).answer k = .ok ts[k]) ∧
      (ParserState.ofString text).answer ts.length = .error e := by
  obtain ⟨ts, head, behind, happ, ht, hb, hl⟩ := tokenize_eq_error_iff.1 h
  obtain ⟨ws, ha⟩ := Lexer.answer_of_tiled ht []
  rw [← happ] at ha
  have ha : ∀ k, (ParserState.ofString text).answer k = _ := ha
  refine ⟨ts, ?_, fun k hk => ?_, ?_⟩
  · rw [hl]
    exact ht.before_endOf
  · rw [ha, List.getElem?_eq_getElem hk]
  · rw [ha, List.getElem?_eq_none (Nat.le_refl _), Nat.sub_self]
    refine (Lexer.answer_fault hb _ ws).trans ?_
    obtain ⟨cause, place⟩ := e
    rw [List.nil_append, ← hl]

theorem not_ofString_of_tokenize_error {text : String} {e : LexError} {p : Program}
    (h : (tokenize text).1 = .error e) : (Program.ofString text).1 ≠ .ok p := by
  intro hp
  obtain ⟨ts, l, ht, -⟩ := exists_renders_of_ofString hp
  simp [ht] at h

theorem ofString_eq_ofTokens {text : String} {ts : List Token} (h : (tokenize text).1 = .ok ts) :
    (Program.ofString text).1 = Program.ofTokens ts :=
  ((Parser.agrees_program (σ := Script) (τ := Ending) (.ofString text)).fst_run_eq rfl
    (answer_of_tokenize h)).symm

/-- A text that has tokens is read as the list of its tokens is, and no fault is named. A text that
has a fault is not read: what is named is the fault, or something else in front of it. -/
theorem ofString_of_tokenize (text : String) :
    match (tokenize text).1 with
    | .ok ts => (Program.ofString text).1 = Program.ofTokens ts ∧
      ∀ e, (Program.ofString text).1 ≠ .error (.lex e)
    | .error e => ∃ e', (Program.ofString text).1 = .error e' ∧
      (e' = .lex e ∨ (∀ e'', e' ≠ .lex e'') ∧ e'.place.Before e.location) := by
  have hagrees := Parser.agrees_program (σ := Script) (τ := Script)
  split
  next ts ht =>
    refine ⟨ofString_eq_ofTokens ht, fun e he => ?_⟩
    obtain ⟨k, c, -, hc⟩ := (hagrees (.ofString text)).exists_reject he
    obtain ⟨t, htk⟩ := ParserState.exists_answer_ofTokens ts _ k
    rw [← answer_of_tokenize ht, htk] at hc
    exact c.about_ne_lex t e hc.symm
  next e ht =>
    obtain ⟨ts, hb, hts, hf⟩ := answer_of_tokenize_error ht
    cases he : (Program.ofString text).1 with
    | ok p => exact absurd he (not_ofString_of_tokenize_error ht)
    | error e' =>
      obtain ⟨k, c, h, rfl⟩ := (hagrees (.ofString text)).exists_reject he
      have hk : k ≤ ts.length := by
        refine Nat.le_of_not_lt fun hlt => ?_
        obtain ⟨t, ht⟩ := h.taken _ hlt
        simp [hf] at ht
      refine ⟨_, rfl, ?_⟩
      by_cases hlt : k < ts.length
      · rw [hts k hlt]
        refine .inr ⟨c.about_ne_lex _, ?_⟩
        exact c.place_about _ ▸ hb _ (List.getElem_mem hlt)
      · rw [Nat.le_antisymm hk (Nat.le_of_not_lt hlt), hf]
        exact .inl rfl

end FlatScript
