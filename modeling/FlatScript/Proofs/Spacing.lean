import FlatScript.Proofs.FirstError

namespace FlatScript

/-- Layout that is closed whatever stands behind it: blanks, closed comments, and comments up to the
end of a line together with that end. -/
inductive IsSpacing : List Char → Prop
  | nil : IsSpacing []
  | blank {c : Char} {g : List Char} (hc : isBlank c = true) (hg : IsSpacing g) : IsSpacing (c :: g)
  | lineComment {body g : List Char} (hb : '\n' ∉ body) (hg : IsSpacing g) :
      IsSpacing ('/' :: '/' :: body ++ '\n' :: g)
  | blockComment {body g : List Char} (hb : ¬ HasClose (body ++ ['*'])) (hg : IsSpacing g) :
      IsSpacing ('/' :: '*' :: body ++ ['*', '/'] ++ g)

/-- Spacing that keeps lexemes apart: a slash is no beginning of it. -/
inductive IsGap : List Char → Prop
  | mk {c : Char} {g : List Char} (hc : isBlank c = true) (hg : IsSpacing g) : IsGap (c :: g)

/-- The lexemes one after the other, with a gap between each two. -/
inductive Lexeme.Gapped : List Lexeme → List Char → Prop
  | nil : Gapped [] []
  | single (l : Lexeme) : Gapped [l] l.spelling
  | cons {l l' : Lexeme} {ls : List Lexeme} {g cs : List Char} (hg : IsGap g)
      (h : Gapped (l' :: ls) cs) : Gapped (l :: l' :: ls) (l.spelling ++ g ++ cs)

/-- The lexemes with a gap between each two, and perhaps in front of the first one and behind the
last one. -/
def Lexeme.LaidOut (ls : List Lexeme) (cs : List Char) : Prop :=
  ∃ front body back, cs = front ++ body ++ back ∧ (front = [] ∨ IsGap front) ∧ Gapped ls body ∧
    (back = [] ∨ IsGap back)

theorem IsSpacing.layout_append {behind g g' : List Char} (h : IsSpacing g)
    (hg : Layout behind g') : Layout behind (g ++ g') := by
  induction h with
  | nil => exact hg
  | blank hc _ ih => exact .blank hc ih
  | @lineComment body g hb _ ih =>
    have hl : Layout behind ('/' :: '/' :: body ++ '\n' :: (g ++ g')) :=
      .lineComment hb (fun c hc => by simpa using hc.symm) (.blank rfl ih)
    simpa using hl
  | blockComment hb _ ih =>
    rw [List.append_assoc]
    exact .blockComment hb ih

theorem IsGap.isSpacing {g : List Char} (h : IsGap g) : IsSpacing g := by
  obtain ⟨hc, hg⟩ := h
  exact .blank hc hg

theorem isSpacing_of_nil_or_gap {g : List Char} (h : g = [] ∨ IsGap g) : IsSpacing g := by
  obtain rfl | h := h
  · exact .nil
  · exact h.isSpacing

theorem Lexeme.endsBefore_of_nil_or_gap (l : Lexeme) {g : List Char} (h : g = [] ∨ IsGap g) :
    l.EndsBefore g := by
  obtain rfl | ⟨hc, -⟩ := h
  · exact fun c hc => by simp at hc
  · exact l.endsBefore_blank hc _

theorem Lexeme.Gapped.exists_tiled {ls : List Lexeme} {cs back : List Char} (h : Gapped ls cs)
    (hp : ∀ l ∈ ls, l.IsProper) (hb : back = [] ∨ IsGap back) (before : List Char) :
    ∃ ts, Tiled [] before (cs ++ back) ts ∧ ts.map Token.lexeme = ls := by
  have hnil : Layout [] [] := .nil
  have hback : Layout [] back := by
    simpa using (isSpacing_of_nil_or_gap hb).layout_append hnil
  induction h generalizing before with
  | nil => exact ⟨[], .layout hback, rfl⟩
  | single l =>
    have hl := hp l (List.mem_singleton_self l)
    have he : l.EndsBefore (back ++ []) := by
      simpa using l.endsBefore_of_nil_or_gap hb
    exact ⟨_, .lexeme .nil hl he (.layout hback), rfl⟩
  | @cons l l' ls g cs hg _ ih =>
    rw [List.forall_mem_cons] at hp
    obtain ⟨ts, ht, hts⟩ := ih hp.2 (before ++ [] ++ l.spelling ++ g)
    have hgt := ht.layout_append fun _ _ _ hl => hg.isSpacing.layout_append hl
    have he : l.EndsBefore (g ++ (cs ++ back) ++ []) := by
      obtain ⟨hc, -⟩ := hg
      exact l.endsBefore_blank hc _
    refine ⟨_, by simpa using Tiled.lexeme .nil hp.1 he hgt, ?_⟩
    rw [List.map_cons, hts]
    rfl

theorem Lexeme.LaidOut.exists_tiled {ls : List Lexeme} {cs : List Char} (h : LaidOut ls cs)
    (hp : ∀ l ∈ ls, l.IsProper) : ∃ ts, Tiled [] [] cs ts ∧ ts.map Token.lexeme = ls := by
  obtain ⟨front, body, back, rfl, hf, hg, hb⟩ := h
  obtain ⟨ts, ht, hts⟩ := hg.exists_tiled hp hb ([] ++ front)
  refine ⟨ts, ?_, hts⟩
  rw [List.append_assoc]
  exact ht.layout_append fun _ _ _ hl => (isSpacing_of_nil_or_gap hf).layout_append hl

def ParseError.moveTo (e : ParseError) (l : Location) : ParseError :=
  match e with
  | .lex e => .lex ⟨e.cause, l⟩
  | .unexpectedToken expected found _ => .unexpectedToken expected found l
  | .unexpectedEof expected _ => .unexpectedEof expected l
  | .invalidLiteral kind text _ => .invalidLiteral kind text l
  | .invalidImportPath path extension _ => .invalidImportPath path extension l
  | .reservedKeyword keyword _ => .reservedKeyword keyword l
  | .nestingTooDeep limit _ => .nestingTooDeep limit l

theorem Complaint.about_of_lexeme (c : Complaint) {t t' : Token} (h : t'.lexeme = t.lexeme) :
    c.about t' = (c.about t).moveTo t'.location := by
  have ht := Parser.text_eq_of_lexeme h
  cases c with
  | unexpected expected =>
    rw [about, about, Parser.isEof_eq_of_lexeme h, ht]
    split
    · rfl
    · rfl
  | literal | importPath | reserved => rw [about, about, ht]; rfl
  | tooDeep => rfl

section Lists

variable {us us' : List Token} {place place' : Location}

theorem Program.ofTokens_of_lexemes (hl : us'.map Token.lexeme = us.map Token.lexeme) :
    match ofTokens (us ++ [.eof place]) with
    | .ok p => ofTokens (us' ++ [.eof place']) = .ok p
    | .error e => ∃ (i : Nat) (u u' : Token), (us ++ [Token.eof place])[i]? = some u ∧
        (us' ++ [Token.eof place'])[i]? = some u' ∧ e.place = u.location ∧
          ofTokens (us' ++ [.eof place']) = .error (e.moveTo u'.location) := by
  have hlen : us'.length = us.length := by simpa using congrArg List.length hl
  have hle : (us' ++ [Token.eof place']).map Token.lexeme =
      (us ++ [Token.eof place]).map Token.lexeme := by
    rw [List.map_append, List.map_append, hl]
    rfl
  -- Both lists give tokens with the same lexeme at each time, and they are at the same position.
  have hgive : ∀ k, ∃ u u', (us ++ [Token.eof place])[min k us.length]? = some u ∧
      (us' ++ [Token.eof place'])[min k us.length]? = some u' ∧ u'.lexeme = u.lexeme ∧
        (ParserState.ofTokens (us ++ [.eof place]) (.eof place)).answer k = .ok u ∧
          (ParserState.ofTokens (us' ++ [.eof place']) (.eof place')).answer k = .ok u' := by
    intro k
    obtain ⟨u, hu, hk⟩ := ParserState.exists_answer_eof us place k
    obtain ⟨u', hu', hk'⟩ := ParserState.exists_answer_eof us' place' k
    rw [hlen] at hu'
    have hi := congrArg (·[min k us.length]?) hle
    simp only [List.getElem?_map, hu, hu', Option.map_some, Option.some.injEq] at hi
    exact ⟨u, u', hu, hu', hi, hk, hk'⟩
  rw [ofTokens_append_eof, ofTokens_append_eof]
  obtain ⟨k, v, h⟩ := Parser.agrees_program (σ := Ending) (τ := Ending)
    (.ofTokens (us ++ [.eof place]) (.eof place))
  obtain ⟨u, u', hu, hu', hlu, hk, hk'⟩ := hgive k
  have hstop := h.agrees (.ofTokens (us' ++ [.eof place']) (.eof place')) rfl
    (fun i _ => by
      obtain ⟨t, t', -, -, ht⟩ := hgive i
      exact ⟨t, t', ht.2.1, ht.2.2, ht.1⟩)
    (by
      rw [hk, hk']
      cases v with
      | accept => exact hlu
      | reject => exact hlu)
  cases v with
  | accept p id =>
    obtain ⟨s, hr, -⟩ := h.stops
    obtain ⟨s', hr', -⟩ := hstop
    rw [hr, hr']
  | reject c =>
    have hr : (Parser.program.run _).1 = _ := h.stops
    have hr' : (Parser.program.run _).1 = _ := hstop
    rw [hk] at hr
    rw [hk'] at hr'
    rw [hr, hr']
    exact ⟨_, u, u', hu, hu', c.place_about u, congrArg Except.error (c.about_of_lexeme hlu)⟩

end Lists

/-- A text that has the lexemes of another one, with gaps between them, has tokens with these
lexemes, and is read as the same program, with the same numbers, or with the same error at the token
in the same position. -/
theorem ofString_laidOut {text text' : String} {us : List Token} {t : Token}
    (h : (tokenize text).1 = .ok (us ++ [t]))
    (hl : Lexeme.LaidOut (us.map Token.lexeme) text'.toList) :
    ∃ ts', (tokenize text').1 = .ok ts' ∧
      ts'.map Token.lexeme = (us ++ [t]).map Token.lexeme ∧
      match (Program.ofString text).1 with
      | .ok p => (Program.ofString text').1 = .ok p
      | .error e => ∃ (i : Nat) (u u' : Token), (us ++ [t])[i]? = some u ∧ ts'[i]? = some u' ∧
          e.place = u.location ∧ (Program.ofString text').1 = .error (e.moveTo u'.location) := by
  obtain ⟨rfl, hp⟩ := isProper_of_tokenize h
  obtain ⟨us', ht, hus⟩ := hl.exists_tiled (by simpa using hp)
  have h' := tokenize_of_tiled ht
  refine ⟨_, h', ?_, ?_⟩
  · rw [List.map_append, List.map_append, hus]
    rfl
  · rw [ofString_eq_ofTokens h, ofString_eq_ofTokens h']
    exact Program.ofTokens_of_lexemes hus

theorem laidOut_letNumber :
    Lexeme.LaidOut [.keyword "let", ⟨.integerLiteral, "5"⟩] "\n// 4\nlet /* */5".toList := by
  have hline : IsSpacing ("//".toList ++ " 4".toList ++ '\n' :: []) := .lineComment (by decide) .nil
  have hblock : IsSpacing ("/*".toList ++ " ".toList ++ "*/".toList ++ []) :=
    .blockComment (by simp [HasClose, List.infix_cons_iff]) .nil
  have hg : Lexeme.Gapped [.keyword "let", ⟨.integerLiteral, "5"⟩] "let /* */5".toList :=
    .cons (.mk (c := ' ') rfl hblock) (.single _)
  exact ⟨_, _, [], rfl, .inr (.mk (c := '\n') rfl hline), hg, .inl rfl⟩

theorem ofString_laidOut_letNumber :
    Lexeme.LaidOut [.keyword "let", ⟨.integerLiteral, "5"⟩] "\n// 4\nlet /* */5".toList ∧
      ∃ ts u, (tokenize "\n// 4\nlet /* */5").1 = .ok ts ∧
        ts.map Token.lexeme = letNumberTokens.map Token.lexeme ∧ ts[1]? = some u ∧
        (Program.ofString "\n// 4\nlet /* */5").1 =
          .error (.unexpectedToken .variableName "5" u.location) := by
  have htokens : (tokenize "let 5").1 = .ok (letNumberTokens.take 2 ++ [letNumberTokens[2]]) :=
    tokenize_letNumber
  obtain ⟨ts, ht, hl, h⟩ := ofString_laidOut htokens laidOut_letNumber
  rw [ofString_letNumber] at h
  obtain ⟨i, u, u', hu, hu', hp, he⟩ := h
  have hi : i = 1 := by
    match i with
    | 0 | 2 => cases hu; cases hp
    | 1 => rfl
    | i + 3 => exact nomatch hu
  exact ⟨laidOut_letNumber, ts, u', ht, hl, hi ▸ hu', he⟩

end FlatScript
