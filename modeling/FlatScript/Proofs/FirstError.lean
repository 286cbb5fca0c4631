import FlatScript.Proofs.Viability

namespace FlatScript

/-! ### Beginnings of texts -/

theorem Layout.of_head {behind behind' g : List Char} (h : Layout behind g)
    (hb : behind'.head? = behind.head?) : Layout behind' g := by
  induction h with
  | nil => exact .nil
  | blank hc _ ih => exact .blank hc ih
  | @lineComment body g hn he _ ih =>
    refine .lineComment hn (fun c hc => he c ?_) ih
    rwa [List.head?_append, hb, ← List.head?_append] at hc
  | blockComment hn _ ih => exact .blockComment hn ih
  | unknown hc _ ih => exact .unknown hc ih

theorem Tiled.exists_take {behind before cs : List Char} {ts : List Token}
    (h : Tiled behind before cs ts) {ls : List Lexeme} (hls : ∀ l ∈ ls, l.IsProper) (i : Nat) :
    ∃ cs' us, Tiled [] before cs' (ts.take i ++ us) ∧ us.map Token.lexeme = ls ∧
      (cs'.head? = some ' ' ∨ cs'.head? = (cs ++ behind).head?) := by
  have hend : ∀ before, ∃ cs' us, Tiled [] before cs' us ∧ us.map Token.lexeme = ls ∧
      cs'.head? = some ' ' := fun before => by
    obtain ⟨us, hu, hus⟩ := exists_tiled_spaced hls (before ++ [' '])
    exact ⟨_, us, hu.layout_append fun _ _ _ hg => .blank rfl hg, hus, rfl⟩
  induction h generalizing i with
  | @layout before g _ =>
    obtain ⟨cs', us, hu, hus, hc⟩ := hend before
    exact ⟨cs', us, by simpa using hu, hus, .inl hc⟩
  | @lexeme before g cs l ts hg hp he _ ih =>
    cases i with
    | zero =>
      obtain ⟨cs', us, hu, hus, hc⟩ := hend before
      exact ⟨cs', us, by simpa using hu, hus, .inl hc⟩
    | succ i =>
      obtain ⟨cs', us, hu, hus, hc⟩ := ih i
      obtain ⟨c, rs, hl⟩ := List.exists_cons_of_ne_nil hp.spelling_ne_nil
      have hg' : Layout (l.spelling ++ cs' ++ []) g := hg.of_head (by simp [hl])
      have he' : l.EndsBefore (cs' ++ []) := by
        rw [List.append_nil]
        rcases hc with hc | hc
        · intro d hd
          rw [hc] at hd
          exact l.endsBefore_blank (c := ' ') rfl [] d hd
        · intro d hd
          rw [hc] at hd
          exact he d hd
      exact ⟨_, us, .lexeme hg' hp he' hu, hus, .inr (by simp [hl])⟩

/-! ### The token at which a parser stops -/

namespace Parser

variable {σ : Type} [TokenSource σ] {α : Type} {p : Parser σ α} {s s' : ParserState σ} {k : Nat}
  {v : Verdict α}

theorem AgreesAs.of_answer (h : AgreesAs s p p k v) (hid : s'.nextId = s.nextId)
    (ha : ∀ i ≤ k, s'.answer i = s.answer i) : AgreesAs s' p p k v where
  taken := fun i hi => by
    rw [ha i (Nat.le_of_lt hi)]
    exact h.taken i hi
  stops := by
    refine h.agrees s' hid (fun i hi => ?_) ?_
    · obtain ⟨t, ht⟩ := h.taken i hi
      exact ⟨t, t, ht, by rw [ha i (Nat.le_of_lt hi), ht], rfl⟩
    · rw [ha k (Nat.le_refl k)]
      exact .refl v _
  agrees := fun s'' hid' hs hc => by
    refine h.agrees s'' (hid'.trans hid) (fun i hi => ?_) ?_
    · rw [← ha i (Nat.le_of_lt hi)]
      exact hs i hi
    · rwa [← ha k (Nat.le_refl k)]

end Parser

theorem ParserState.answer_take {ts : List Token} {i j : Nat} (hi : i < (ts.take j).length)
    (e e' : Ending) : (ofTokens (ts.take j) e).answer i = (ofTokens ts e').answer i := by
  have ht : (ts.take j)[i]? = ts[i]? := by
    rw [List.length_take] at hi
    exact List.getElem?_take_of_lt (by omega)
  rw [answer_ofTokens, answer_ofTokens, ← ht, List.getElem?_eq_getElem hi]

namespace Parser

variable {α : Type} {p : Parser Ending α} {ts : List Token} {place : Location}

/-- If some beginning of the tokens leads neither into a fault behind it nor to a result, then the
parser stops in it. -/
theorem exists_lt_of_not_hangs {e : LexError} {j : Nat}
    (hp : ∀ s, Agrees s p p) {err : ParseError}
    (he : (p.run (.ofTokens ts (.eof place))).1 = .error err)
    (hj : ¬ p.Hangs (.ofTokens (ts.take j) (.fault e))) :
    ∃ k < j, ∃ c, AgreesAs (.ofTokens ts (.eof place)) p p k (.reject c) := by
  obtain ⟨k, v, h⟩ := hp (.ofTokens (ts.take j) (.fault e))
  have hk : k ≤ (ts.take j).length := by
    refine Nat.le_of_not_lt fun hlt => ?_
    obtain ⟨t, ht⟩ := h.taken _ hlt
    simp [ParserState.answer_ofTokens, Ending.answer] at ht
  have hsame : ∀ i < (ts.take j).length, (ParserState.ofTokens ts (.eof place)).answer i =
      (ParserState.ofTokens (ts.take j) (.fault e)).answer i := fun i hi =>
    (ParserState.answer_take hi _ _).symm
  cases v with
  | accept a id =>
    -- What has a result in front of the fault has it in front of every other token as well.
    have hs : (ParserState.ofTokens (ts.take j) (.fault e)).AlikeTo (.ofTokens ts (.eof place)) k :=
      fun i hi => by
        obtain ⟨t, ht⟩ := h.taken i hi
        exact ⟨t, t, ht, by rw [hsame i (Nat.lt_of_lt_of_le hi hk), ht], rfl⟩
    have hc : (Verdict.accept a id).Covers ((ParserState.ofTokens (ts.take j) (.fault e)).answer k)
        ((ParserState.ofTokens ts (.eof place)).answer k) := by
      by_cases hlt : k < (ts.take j).length
      · rw [hsame k hlt]
        exact .refl _ _
      · rw [ParserState.answer_ofTokens, List.getElem?_eq_none (Nat.le_of_not_lt hlt)]
        trivial
    obtain ⟨s', hr, -⟩ := h.agrees (.ofTokens ts (.eof place)) rfl hs hc
    rw [hr] at he
    exact nomatch he
  | reject c =>
    by_cases hlt : k < (ts.take j).length
    · refine ⟨k, ?_, c, h.of_answer rfl fun i hi => ?_⟩
      · rw [List.length_take] at hlt
        omega
      · exact hsame i (Nat.lt_of_le_of_lt hi hlt)
    · have hs : (p.run (.ofTokens (ts.take j) (.fault e))).1 = _ := h.stops
      obtain rfl := Nat.le_antisymm hk (Nat.le_of_not_lt hlt)
      refine absurd ⟨e, ?_⟩ hj
      rw [hs, ParserState.answer_ofTokens, List.getElem?_eq_none (Nat.le_refl _)]
      rfl

/-- A parser that has no result stops in a complaint about the first token behind which it would
not run into a fault. -/
theorem exists_hangs_up_to (hp : ∀ s, Agrees s p p) {err : ParseError}
    (he : (p.run (.ofTokens ts (.eof place))).1 = .error err) (e : LexError) :
    ∃ k c, AgreesAs (.ofTokens ts (.eof place)) p p k (.reject c) ∧
      ∀ j ≤ k, p.Hangs (.ofTokens (ts.take j) (.fault e)) := by
  have hleast : ∀ k c, AgreesAs (.ofTokens ts (.eof place)) p p k (.reject c) →
      ∃ k c, AgreesAs (.ofTokens ts (.eof place)) p p k (.reject c) ∧
        ∀ j ≤ k, p.Hangs (.ofTokens (ts.take j) (.fault e)) := by
    intro k
    induction k using Nat.strongRecOn with
    | _ k ih =>
      intro c h
      by_cases hj : ∀ j ≤ k, p.Hangs (.ofTokens (ts.take j) (.fault e))
      · exact ⟨k, c, h, hj⟩
      · obtain ⟨j, hj⟩ := Classical.not_forall.1 hj
        obtain ⟨hjk, hj⟩ := Classical.not_imp.1 hj
        obtain ⟨k', hk', c', h'⟩ := exists_lt_of_not_hangs hp he hj
        exact ih k' (Nat.lt_of_lt_of_le hk' hjk) c' h'
  obtain ⟨k, c, h, -⟩ := (hp (.ofTokens ts (.eof place))).exists_reject he
  exact hleast k c h

end Parser

/-! ### Errors of programs -/

/-- The error is about the token: it names the place of the token, and its text where it names a
text; at the end of input, what is unexpected is the end. -/
def ParseError.Concerns (e : ParseError) (t : Token) : Prop :=
  match e with
  | .unexpectedToken _ found place => t.isEof = false ∧ found = t.text ∧ place = t.location
  | .unexpectedEof _ place => t.isEof = true ∧ place = t.location
  | .invalidLiteral _ text place | .invalidImportPath text _ place | .reservedKeyword text place =>
    text = t.text ∧ place = t.location
  | .nestingTooDeep _ place => place = t.location
  | .lex _ => False

theorem Complaint.concerns_about (c : Complaint) (t : Token) : (c.about t).Concerns t := by
  cases c with
  | unexpected expected =>
    rw [about]
    cases he : t.isEof with
    | true => exact ⟨he, rfl⟩
    | false => exact ⟨he, rfl, rfl⟩
  | tooDeep => exact rfl
  | _ => exact ⟨rfl, rfl⟩

theorem ParserState.breaks_ofTokens {us : List Token} (h : ∀ u ∈ us, u.lexeme.IsProper)
    (e : LexError) : (ofTokens us (.fault e)).Breaks (us.map Token.lexeme) where
  proper := by
    intro l hl
    obtain ⟨u, hu, rfl⟩ := List.mem_map.1 hl
    exact h u hu
  begins := fun i hi => by
    rw [List.length_map] at hi
    exact ⟨us[i], by rw [answer_ofTokens, List.getElem?_eq_getElem hi], by rw [List.getElem_map]⟩
  fault := by
    rw [List.length_map, answer_ofTokens, List.getElem?_eq_none (Nat.le_refl _)]
    exact ⟨e, rfl⟩

theorem ParserState.exists_answer_eof (us : List Token) (place : Location) (k : Nat) :
    ∃ t, (us ++ [.eof place])[min k us.length]? = some t ∧
      (ofTokens (us ++ [.eof place]) (.eof place)).answer k = .ok t := by
  rw [answer_ofTokens]
  by_cases hk : k ≤ us.length
  · have hlt : k < (us ++ [Token.eof place]).length := by simp; omega
    rw [Nat.min_eq_left hk, List.getElem?_eq_getElem hlt]
    exact ⟨_, rfl, rfl⟩
  · have hle : (us ++ [Token.eof place]).length ≤ k := by simp; omega
    rw [Nat.min_eq_right (Nat.le_of_not_le hk), List.getElem?_eq_none hle]
    exact ⟨_, List.getElem?_concat_length, rfl⟩

theorem Program.ofTokens_append_eof (us : List Token) (place : Location) :
    ofTokens (us ++ [.eof place]) =
      (Parser.program.run (.ofTokens (us ++ [.eof place]) (.eof place))).1 := by
  simp [ofTokens, Token.eof]

theorem exists_ofString_take {text : String} {us : List Token} {place : Location} {i : Nat}
    {ls : List Lexeme} (h : (tokenize text).1 = .ok (us ++ [.eof place]))
    (hls : ∀ l ∈ ls, l.IsProper)
    (hp : (Parser.program : Parser Ending Program).Completes ((us.take i).map Token.lexeme ++ ls) 0
      (·.kind = .eof)) :
    ∃ text' vs p, (tokenize text').1 = .ok (us.take i ++ vs) ∧ vs ≠ [] ∧
      (Program.ofString text').1 = .ok p := by
  obtain ⟨-, ht⟩ := tiled_of_tokenize h
  obtain ⟨cs, vs, hc, hvs, -⟩ := ht.exists_take hls i
  rw [← String.toList_ofList (l := cs)] at hc
  have hk := tokenize_of_tiled hc
  obtain ⟨p, id, hp⟩ := hp
  have hs := Parser.shows_ofTokens hc.isProper (.endOf (String.ofList cs).toList)
  rw [List.map_append, hvs] at hs
  obtain ⟨s', hr, -⟩ := hp _ [] rfl _ hs rfl
  refine ⟨.ofList cs, vs ++ [.eof (.endOf (String.ofList cs).toList)], p, ?_, by simp, ?_⟩
  · rw [hk, List.append_assoc]
  · rw [ofString_eq_ofTokens hk, Program.ofTokens_append_eof, hr]

/-- The tokens behind which a parser of programs runs into a fault are those of some program. -/
theorem exists_ofString_of_hangs {text : String} {us : List Token} {place : Location} {i : Nat}
    {fault : LexError} {e : ParseError} (h : (tokenize text).1 = .ok (us ++ [.eof place]))
    (he : (Program.ofString text).1 = .error e) (hn : ∀ max place, e ≠ .nestingTooDeep max place)
    (hopen : Lexeme.OpensFewer Parser.maxNesting ((us.take i).map Token.lexeme))
    (hh : (Parser.program : Parser Ending Program).Hangs (.ofTokens (us.take i) (.fault fault))) :
    ∃ text' vs p, (tokenize text').1 = .ok (us.take i ++ vs) ∧ vs ≠ [] ∧
      (Program.ofString text').1 = .ok p := by
  have hu := (isProper_of_tokenize h).2
  have hui : ∀ u ∈ us.take i, u.lexeme.IsProper := fun u hi => hu u (List.mem_of_mem_take hi)
  have hb := ParserState.breaks_ofTokens hui fault
  obtain ⟨ws, hw, hc⟩ | hd := Parser.steers_program _ _ hopen hb hh
  · exact exists_ofString_take h hw hc
  · -- The text itself goes on behind those tokens, and not with too many levels.
    obtain ⟨l, rs, hl⟩ : ∃ l rs, (us.drop i).map Token.lexeme ++ [⟨.eof, ""⟩] = l :: rs :=
      List.exists_cons_of_ne_nil (by simp)
    have hs := Parser.shows_ofTokens hu place
    rw [← List.take_append_drop i (us.map Token.lexeme), ← List.map_take, ← List.map_drop,
      List.append_assoc, hl] at hs
    obtain ⟨deep, hdeep⟩ := hd l rs _ hs rfl
    rw [← Program.ofTokens_append_eof, ← ofString_eq_ofTokens h, he] at hdeep
    exact absurd (Except.error.inj hdeep) (hn _ deep)

section Beginnings

variable {us us' : List Token} {place place' : Location} {k : Nat}

theorem lexeme_of_begins
    (hpre : ((us ++ [Token.eof place]).take (min k us.length + 1)).map Token.lexeme <+:
      (us' ++ [Token.eof place']).map Token.lexeme) {n : Nat} (hn : n ≤ min k us.length) :
    (us' ++ [Token.eof place'])[n]?.map Token.lexeme =
      (us ++ [Token.eof place])[n]?.map Token.lexeme := by
  obtain ⟨rs, hrs⟩ := hpre
  have hlen :
      n < (((us ++ [Token.eof place]).take (min k us.length + 1)).map Token.lexeme).length := by
    simp
    omega
  rw [← List.getElem?_map, ← hrs, List.getElem?_append_left hlen, List.getElem?_map,
    List.getElem?_take_of_lt (Nat.lt_succ_of_le hn)]

theorem length_le_of_lexeme (hp : ∀ u ∈ us', u.lexeme.IsProper)
    (hl : (us' ++ [Token.eof place'])[us.length]?.map Token.lexeme =
      (us ++ [Token.eof place])[us.length]?.map Token.lexeme) : us'.length ≤ us.length := by
  refine Nat.le_of_not_lt fun hlt => ?_
  rw [List.getElem?_append_left hlt, List.getElem?_eq_getElem hlt] at hl
  have hl : us'[us.length].lexeme = ⟨.eof, ""⟩ := by simpa [Token.lexeme, Token.eof] using hl
  have hpr := hp _ (List.getElem_mem hlt)
  rw [hl] at hpr
  exact hpr

theorem ParserState.alike_of_begins (hp : ∀ u ∈ us', u.lexeme.IsProper)
    (hpre : ((us ++ [Token.eof place]).take (min k us.length + 1)).map Token.lexeme <+:
      (us' ++ [Token.eof place']).map Token.lexeme) {n : Nat} (hn : n ≤ k) :
    ∃ t t', (ofTokens (us ++ [.eof place]) (.eof place)).answer n = .ok t ∧
      (ofTokens (us' ++ [.eof place']) (.eof place')).answer n = .ok t' ∧
        t'.lexeme = t.lexeme := by
  rw [answer_ofTokens, answer_ofTokens]
  by_cases hlt : n ≤ us.length
  · have hl := lexeme_of_begins hpre (Nat.le_min.2 ⟨hn, hlt⟩)
    have hn' : n < (us ++ [Token.eof place]).length := by
      simp
      omega
    rw [List.getElem?_eq_getElem hn', Option.map_some, Option.map_eq_some_iff] at hl
    obtain ⟨t', ht', hl⟩ := hl
    rw [List.getElem?_eq_getElem hn', ht']
    exact ⟨_, t', rfl, rfl, hl⟩
  · have hm : us.length ≤ min k us.length := by omega
    have hlen := length_le_of_lexeme hp (lexeme_of_begins hpre hm)
    have hn₁ : (us ++ [Token.eof place]).length ≤ n := by
      simp
      omega
    have hn₂ : (us' ++ [Token.eof place']).length ≤ n := by
      simp
      omega
    rw [List.getElem?_eq_none hn₁, List.getElem?_eq_none hn₂]
    exact ⟨_, _, rfl, rfl, rfl⟩

theorem Parser.AgreesAs.not_ofTokens {c : Complaint}
    (h : AgreesAs (.ofTokens (us ++ [.eof place]) (.eof place)) program
      (program : Parser Ending Program) k (.reject c)) (hp : ∀ u ∈ us', u.lexeme.IsProper)
    (hpre : ((us ++ [Token.eof place]).take (min k us.length + 1)).map Token.lexeme <+:
      (us' ++ [Token.eof place']).map Token.lexeme) (p : Program) :
    Program.ofTokens (us' ++ [.eof place']) ≠ .ok p := by
  intro hok
  have hcov : (Verdict.reject c : Verdict Program).Covers
      ((ParserState.ofTokens (us ++ [.eof place]) (.eof place)).answer k)
      ((ParserState.ofTokens (us' ++ [.eof place']) (.eof place')).answer k) := by
    obtain ⟨t, t', ht, ht', hl⟩ := ParserState.alike_of_begins hp hpre (Nat.le_refl k)
    rw [ht, ht']
    exact hl
  have hstop := h.agrees (.ofTokens (us' ++ [.eof place']) (.eof place')) rfl
    (fun n hn => ParserState.alike_of_begins hp hpre (Nat.le_of_lt hn)) hcov
  rw [StopsAt, ← Program.ofTokens_append_eof, hok] at hstop
  cases hstop

end Beginnings

/-- A text that has tokens and is no program has a first token with which no program goes on, and
that token is the one that the error is about: no text that begins with the lexemes up to it is a
program, and some program begins with the tokens in front of it. The latter may fail only where as
many bodies are open as there may be levels, each of them being a level. -/
theorem ofString_error_first {text : String} {ts : List Token} {e : ParseError}
    (ht : (tokenize text).1 = .ok ts) (he : (Program.ofString text).1 = .error e)
    (hn : ∀ max place, e ≠ .nestingTooDeep max place) :
    ∃ i t, ts[i]? = some t ∧ e.Concerns t ∧
      (∀ text' ts', (tokenize text').1 = .ok ts' →
        (ts.take (i + 1)).map Token.lexeme <+: ts'.map Token.lexeme →
          ∀ p, (Program.ofString text').1 ≠ .ok p) ∧
      (Lexeme.OpensFewer Parser.maxNesting ((ts.take i).map Token.lexeme) →
        ∃ text' vs p, (tokenize text').1 = .ok (ts.take i ++ vs) ∧ vs ≠ [] ∧
          (Program.ofString text').1 = .ok p) := by
  obtain ⟨us, rfl, hu⟩ := tokenize_eq_ok_iff.1 ht
  have hrun := he
  rw [ofString_eq_ofTokens ht, Program.ofTokens_append_eof] at hrun
  obtain ⟨k, c, hk, hhang⟩ := Parser.exists_hangs_up_to Parser.agrees_program hrun
    ⟨.leadingZero, .start⟩
  obtain ⟨t, hti, htk⟩ := ParserState.exists_answer_eof us (.endOf text.toList) k
  have hec : e = c.about t := by
    have hs : (Parser.program.run _).1 = _ := hk.stops
    rw [hrun, htk] at hs
    exact Except.error.inj hs
  refine ⟨min k us.length, t, hti, hec ▸ c.concerns_about t, fun text' ts' ht' hpre p hp => ?_,
    fun hopen => ?_⟩
  · obtain ⟨us', rfl, hu'⟩ := tokenize_eq_ok_iff.1 ht'
    rw [ofString_eq_ofTokens ht'] at hp
    exact hk.not_ofTokens hu'.isProper hpre p hp
  · have hh := hhang _ (Nat.min_le_left k us.length)
    rw [List.take_append_of_le_length (Nat.min_le_right _ _)] at hopen hh ⊢
    exact exists_ofString_of_hangs ht he hn hopen hh

def letNumberTokens : List Token :=
  [⟨.keyword, "let", ⟨1, 1⟩⟩, ⟨.integerLiteral, "5", ⟨1, 5⟩⟩, ⟨.eof, "", ⟨1, 6⟩⟩]

theorem tokenize_letNumber : (tokenize "let 5").1 = .ok letNumberTokens := by
  have hl : (Lexeme.keyword "let").IsProper := Lexeme.isProper_keyword (by decide)
  have hn : Lexeme.IsProper ⟨.integerLiteral, "5"⟩ := by
    simp [Lexeme.IsProper, IsWhole, IsDigits]
  have he : Lexeme.EndsBefore ⟨.integerLiteral, "5"⟩ [] := by simp [Lexeme.EndsBefore]
  have h5 : Tiled [] ['l', 'e', 't'] [' ', '5'] _ :=
    .lexeme (.blank rfl .nil) hn he (.layout .nil)
  have ht : Tiled [] [] "let 5".toList _ := .lexeme .nil hl (Lexeme.endsBefore_blank _ rfl _) h5
  exact tokenize_of_tiled ht

theorem ofString_letNumber :
    (Program.ofString "let 5").1 = .error (.unexpectedToken .variableName "5" ⟨1, 5⟩) := by
  have hs : (Parser.statements Parser.maxNesting : Parser Ending _) =
      Parser.statementList 128 (Parser.statements 127) := rfl
  rw [ofString_eq_ofTokens tokenize_letNumber, Program.ofTokens, Parser.program]
  apply Parser.fst_bind_of_error
  rw [hs, Parser.statementList_eq]
  cbv

theorem ofString_error_first_letNumber :
    (Program.ofString "let 5").1 = .error (.unexpectedToken .variableName "5" ⟨1, 5⟩) ∧
      ∃ i t, letNumberTokens[i]? = some t ∧
        (ParseError.unexpectedToken .variableName "5" ⟨1, 5⟩).Concerns t ∧
        (∀ text' ts', (tokenize text').1 = .ok ts' →
          (letNumberTokens.take (i + 1)).map Token.lexeme <+: ts'.map Token.lexeme →
            ∀ p, (Program.ofString text').1 ≠ .ok p) ∧
        ∃ text' vs p, (tokenize text').1 = .ok (letNumberTokens.take i ++ vs) ∧ vs ≠ [] ∧
          (Program.ofString text').1 = .ok p := by
  obtain ⟨i, t, ht, hc, hr, hv⟩ :=
    ofString_error_first tokenize_letNumber ofString_letNumber (fun _ _ => by simp)
  refine ⟨ofString_letNumber, i, t, ht, hc, hr, hv ?_⟩
  match i with
  | 0 | 1 | 2 => decide
  | i + 3 => exact nomatch ht

end FlatScript
