import FlatScript.Proofs.FirstError
import FlatScript.Proofs.Seam

namespace FlatScript

theorem Layout.append {behind g g' : List Char} (h : Layout (g' ++ behind) g)
    (h' : Layout behind g') : Layout behind (g ++ g') := by
  induction h with
  | nil => exact h'
  | blank hc _ ih => exact .blank hc ih
  | lineComment hb he _ ih =>
    rw [List.append_assoc]
    exact .lineComment hb (by rwa [List.append_assoc]) ih
  | blockComment hb _ ih =>
    rw [List.append_assoc]
    exact .blockComment hb ih
  | unknown hc _ ih => exact .unknown hc ih

theorem Tiled.append {behind before cs cs' : List Char} {ts ts' : List Token}
    (h : Tiled (cs' ++ behind) before cs ts) (h' : Tiled behind (before ++ cs) cs' ts') :
    Tiled behind before (cs ++ cs') (ts ++ ts') := by
  induction h with
  | layout hg =>
    exact h'.layout_append fun g' rest hr hg' => Layout.append (hr ▸ hg) hg'
  | @lexeme before g cs l ts hg hp he _ ih =>
    have ht := ih (by simpa using h')
    have hg : Layout (l.spelling ++ (cs ++ cs') ++ behind) g := by simpa using hg
    simpa using Tiled.lexeme hg hp (by simpa using he) ht

/-- The places of the tokens matter to a tiling only together. -/
theorem Tiled.exists_behind {behind before cs : List Char} {ts : List Token}
    (h : Tiled behind before cs ts) (before' : List Char) :
    ∃ ts', Tiled behind before' cs ts' ∧ ts'.map Token.lexeme = ts.map Token.lexeme := by
  induction h generalizing before' with
  | layout hg => exact ⟨[], .layout hg, rfl⟩
  | @lexeme before g cs l ts hg hp he _ ih =>
    obtain ⟨ts', ht, hts⟩ := ih (before' ++ g ++ l.spelling)
    exact ⟨_, .lexeme hg hp he ht, by simp [hts, Token.lexeme, Lexeme.token]⟩

theorem Layout.before_newline {g : List Char} (h : Layout [] g) (cs : List Char) :
    Layout ('\n' :: cs) g := by
  induction h with
  | nil => exact .nil
  | blank hc _ ih => exact .blank hc ih
  | @lineComment body g hb he _ ih =>
    refine .lineComment hb (fun c hc => ?_) ih
    cases g with
    | nil => simpa using hc.symm
    | cons d g => exact he c hc
  | blockComment hb _ ih => exact .blockComment hb ih
  | unknown hc _ ih => exact .unknown hc ih

theorem Tiled.before_newline {before cs : List Char} {ts : List Token} (h : Tiled [] before cs ts)
    (behind : List Char) : Tiled ('\n' :: behind) before cs ts := by
  induction h with
  | layout hg => exact .layout (hg.before_newline behind)
  | @lexeme before g cs l ts hg hp he _ ih =>
    refine .lexeme (hg.of_head ?_) hp ?_ ih
    · obtain ⟨c, ds, hc⟩ := List.exists_cons_of_ne_nil hp.spelling_ne_nil
      simp [hc]
    · cases cs with
      | nil => exact l.endsBefore_blank (by rfl) behind
      | cons c cs => exact he

theorem Tiled.exists_append {cs cs' : List Char} {ts ts' : List Token} (h : Tiled [] [] cs ts)
    (h' : Tiled [] [] cs' ts') :
    ∃ us, Tiled [] [] (cs ++ '\n' :: cs') (ts ++ us) ∧
      us.map Token.lexeme = ts'.map Token.lexeme := by
  obtain ⟨us, hu, hus⟩ := h'.exists_behind ([] ++ cs ++ ['\n'])
  refine ⟨us, Tiled.append (by simpa using h.before_newline cs') ?_, hus⟩
  exact hu.layout_append fun _ _ _ hg => .blank rfl hg

section

variable {σ : Type} [TokenSource σ] {s s' : ParserState σ} {p : Program}

theorem Parser.run_program_eq_ok :
    program.run s = (.ok p, s') ↔ ∃ s₁ t, (statements maxNesting).run s = (.ok p.statements, s₁) ∧
      peek.run s₁ = (.ok t, s') ∧ t.isEof = true := by
  rw [program, run_bind_eq_ok]
  constructor
  · rintro ⟨ss, s₁, h, hr⟩
    obtain ⟨t, s₂, hp, hr⟩ := run_bind_eq_ok.1 hr
    split at hr
    next he =>
      obtain ⟨rfl, rfl⟩ := run_pure_eq_ok.1 hr
      exact ⟨s₁, t, h, hp, he⟩
    next => exact absurd hr run_unexpected_ne_ok
  · rintro ⟨s₁, t, h, hp, he⟩
    exact ⟨_, s₁, h, run_bind_eq_ok.2 ⟨t, s', hp, by rw [if_pos he]; rfl⟩⟩

theorem Seam.takes_of_program {j : Seam} {ls : List Lexeme} (hs : s.Faces j ls)
    (hr : Parser.program.run s = (.ok p, s')) {bs : List Statement} {us : List Lexeme} {id : NodeId}
    (hb : (Parser.statements Parser.maxNesting : Parser σ _).Takes j.behind (s'.nextId + j.shift) bs
      us id) :
    (Parser.statements Parser.maxNesting : Parser σ _).Takes (ls ++ j.behind) (s.nextId + j.shift)
      (p.statements.map (·.shifted j.shift) ++ bs) us id := by
  obtain ⟨s₁, t, h, hp, he⟩ := Parser.run_program_eq_ok.1 hr
  obtain ⟨rs, hs₁, -, hgo⟩ := Seam.prolongs_statements _ ls s p.statements s₁ hs h
  refine hgo bs us id ?_
  cases rs with
  | nil =>
    obtain ⟨-, -, hid⟩ := Parser.shows_of_peek hs₁.shows hp
    rwa [← hid]
  | cons l rs =>
    obtain ⟨hl, -⟩ := Parser.shows_of_peek hs₁.shows hp
    exact absurd (hl ▸ Parser.isEof_iff.1 he) hs₁.kind_ne_eof

end

/-- The first text ends in a name, and the second one begins with a parenthesis: together they would
write a call. -/
def JoinInCall (text text' : String) : Prop :=
  ∃ ts t e u us, (tokenize text).1 = .ok (ts ++ [t, e]) ∧ t.kind = .identifier ∧
    (tokenize text').1 = .ok (u :: us) ∧ u.lexeme = .separator "("

/-- The lexemes of a program begin with one that begins a statement, if there are any. -/
theorem Program.Renders.begins {Ending : List Lexeme → Prop} {p : Program} {n : Nat}
    {ls : List Lexeme} (h : p.Renders Ending n ls) :
    ls = [] ∨ ∃ l rs, ls = l :: rs ∧ Parser.Opens l := by
  obtain ⟨ss⟩ := p
  cases h with
  | nil => exact .inl rfl
  | cons h _ =>
    obtain ⟨l, rs, rfl, hl⟩ := Parser.exists_opens h
    exact .inr ⟨l, _, rfl, hl⟩

theorem faces_ofString {text : String} {ts : List Token} {place : Location}
    (ht : (tokenize text).1 = .ok (ts ++ [.eof place])) {j : Seam}
    (hj : j.first = .separator "(" → ∀ t ∈ ts.getLast?, t.kind ≠ .identifier) :
    (ParserState.ofString text).Faces j (ts.map Token.lexeme) where
  shows := by
    have hs := shows_ofString ht
    rwa [List.map_append] at hs
  inside := by
    intro l hl
    obtain ⟨t, ht', rfl⟩ := List.mem_map.1 hl
    have he := ((isProper_of_tokenize ht).2 t ht').isEof_token .start
    simpa [Token.isEof, Lexeme.token] using he
  parted := by
    intro h l hl
    rw [List.getLast?_map] at hl
    obtain ⟨t, ht', rfl⟩ := Option.map_eq_some_iff.1 hl
    exact hj h t ht'

theorem exists_takes_of_ofString {text : String} {p : Program} {ts : List Token}
    {place : Location} (h : (Program.ofString text).1 = .ok p)
    (ht : (tokenize text).1 = .ok (ts ++ [.eof place])) (n : Nat) :
    ∃ id, (Parser.statements Parser.maxNesting : Parser Script _).Takes
      (ts.map Token.lexeme ++ [.eof]) n (p.statements.map (·.shifted n)) [.eof] id := by
  obtain ⟨s', hr⟩ := run_program_of_ofString h
  let j : Seam := ⟨.eof, [], n, .inl rfl⟩
  have hs := faces_ofString (j := j) ht (by simp [j, Lexeme.eof, Lexeme.separator])
  have hend := Parser.takes_statements (σ := Script) (n := Parser.maxNesting) .nil
    (l := .eof) (.inl rfl) [] (s'.nextId + n)
  have hp := Seam.takes_of_program hs hr (j := j) hend
  rw [Statement.numberedAll, List.append_nil] at hp
  exact ⟨_, by simpa [ParserState.ofString, Seam.behind, j] using hp⟩

theorem exists_seam_of_ofString {text : String} {p : Program} {ts : List Token}
    {place : Location} (hw : p.Renders IsClosable Parser.maxNesting (ts.map Token.lexeme))
    (ht : (tokenize text).1 = .ok (ts ++ [.eof place])) :
    ∃ j : Seam, j.shift = 0 ∧ j.behind = ts.map Token.lexeme ++ [.eof] ∧
      (j.first = .separator "(" →
        ∃ u us, (tokenize text).1 = .ok (u :: us) ∧ u.lexeme = .separator "(") := by
  cases ts with
  | nil => exact ⟨⟨.eof, [], 0, .inl rfl⟩, rfl, rfl, by simp [Lexeme.eof, Lexeme.separator]⟩
  | cons u us =>
    obtain ⟨l, ls, hls, hl⟩ := hw.begins.resolve_left (by simp)
    obtain ⟨rfl, -⟩ := List.cons.inj hls
    exact ⟨⟨u.lexeme, us.map Token.lexeme ++ [.eof], 0, .inr hl⟩, rfl, rfl,
      fun hu => ⟨u, _, ht, hu⟩⟩

theorem ofString_of_takes {text : String} {ss : List Statement} {ls : List Lexeme} {id : NodeId}
    (hs : (ParserState.ofString text).Shows ls)
    (h : (Parser.statements Parser.maxNesting : Parser Script _).Takes ls 0 ss [.eof] id) :
    (Program.ofString text).1 = .ok ⟨ss⟩ := by
  obtain ⟨s, hr, hs', -⟩ := h _ hs rfl
  obtain ⟨t, s', ht, hp, -⟩ := Parser.run_peek_of_shows hs'
  have hprogram := Parser.run_program_eq_ok (p := ⟨ss⟩).2
    ⟨s, t, hr, hp, Parser.isEof_iff.2 (ht ▸ rfl)⟩
  simp [Program.ofString, hprogram]

/-- Two texts that are programs, one behind the other with a line break between them, are the
program with the statements of both; the numbers in those of the second one are larger by the number
of mentions in the first one. -/
theorem ofString_append {text text' : String} {p p' : Program}
    (h : (Program.ofString text).1 = .ok p) (h' : (Program.ofString text').1 = .ok p')
    (hj : ¬ JoinInCall text text') :
    (Program.ofString (text ++ "\n" ++ text')).1 = .ok ⟨p.statements ++
      p'.statements.map (·.shifted (Statement.mentionsAll p.statements).length)⟩ := by
  obtain ⟨ts, place, ht, -⟩ := exists_renders_of_ofString h
  obtain ⟨ts', place', ht', hw⟩ := exists_renders_of_ofString h'
  -- The lexemes of both texts stand one behind the other.
  obtain ⟨us, hu, hus⟩ := (tiled_of_tokenize ht).2.exists_append (tiled_of_tokenize ht').2
  have happ : (text ++ "\n" ++ text').toList = text.toList ++ '\n' :: text'.toList := by simp
  have hshows : (ParserState.ofString (text ++ "\n" ++ text')).Shows
      (ts.map Token.lexeme ++ (ts'.map Token.lexeme ++ [.eof])) := by
    have hs := shows_ofString (tokenize_of_tiled (happ ▸ hu))
    rwa [List.map_append, List.map_append, hus, List.append_assoc] at hs
  -- The second text is read behind the mentions of the first one, and the first one in front of it.
  obtain ⟨s₁, hr⟩ := run_program_of_ofString h
  have hid : s₁.nextId = (Statement.mentionsAll p.statements).length := by
    obtain ⟨ls, t, hls, -⟩ := Parser.reads_program hr
    simpa [ParserState.ofString] using hls.nextId_eq
  obtain ⟨id, hsecond⟩ := exists_takes_of_ofString h' ht' s₁.nextId
  obtain ⟨j, hshift, hbehind, hopen⟩ := exists_seam_of_ofString hw ht'
  have hs : (ParserState.ofString text).Faces j (ts.map Token.lexeme) := by
    refine faces_ofString ht fun hc t htl hk => hj ?_
    obtain ⟨u, vs, hu', hul⟩ := hopen hc
    obtain ⟨ts₀, rfl⟩ := List.getLast?_eq_some_iff.1 htl
    exact ⟨ts₀, t, _, u, vs, by simpa using ht, hk, hu', hul⟩
  rw [← hbehind] at hsecond hshows
  have hboth := Seam.takes_of_program hs hr (by rwa [hshift])
  rw [hshift] at hboth
  rw [ofString_of_takes hshows hboth, hid]
  simp [Statement.shifted_zero]

theorem not_joinInCall_product (text : String) :
    ¬ JoinInCall text "let x = ( a + 1 ) * f ( ) ; " := by
  rintro ⟨-, -, -, u, us, -, -, hu, hul⟩
  obtain ⟨ts, place, ht, hw⟩ := exists_renders_of_ofString ofString_product
  rw [ht, Except.ok.injEq] at hu
  obtain ⟨l, hls, hl⟩ : ∃ l, (ts.map Token.lexeme).head? = some l ∧ l.kind = .keyword := by
    generalize ts.map Token.lexeme = ls at hw
    cases hw with
    | cons h _ =>
      cases h with
      | declaration => exact ⟨_, rfl, rfl⟩
  cases ts with
  | nil => simp at hls
  | cons t ts =>
    obtain ⟨rfl, -⟩ := List.cons.inj hu
    obtain rfl : t.lexeme = l := by simpa using hls
    simp [hul, Lexeme.separator] at hl

theorem ofString_product_product :
    (Program.ofString
      ("let x = ( a + 1 ) * f ( ) ; " ++ "\n" ++ "let x = ( a + 1 ) * f ( ) ; ")).1 =
        .ok ⟨(product 0 1).statements ++ (product 2 3).statements⟩ :=
  ofString_append ofString_product ofString_product (not_joinInCall_product _)

end FlatScript
