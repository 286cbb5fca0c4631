import FlatScript.Interpreter
import FlatScript.Proofs.Accepting
import FlatScript.Proofs.Reading
import FlatScript.Proofs.Tiling

namespace FlatScript

theorem Lexeme.isProper_separator {text : String}
    (h : text ∈ ["(", ")", "\x7b", "\x7d", ",", ";", "::"]) : (Lexeme.separator text).IsProper := by
  simp only [List.mem_cons, List.not_mem_nil, or_false] at h
  rcases h with rfl | rfl | rfl | rfl | rfl | rfl | rfl
  all_goals simp [IsProper, Lexeme.separator, separatorChars]

theorem Lexeme.isProper_operator (op : Operator) : (Lexeme.operator op).IsProper := by
  cases op
  all_goals simp [IsProper, Lexeme.operator, Operator.symbol, operatorChars, operatorPairs]

theorem Lexeme.Writes.isProper {l : Lexeme} {e : Expr} (h : l.Writes e) : l.IsProper := by
  cases h with
  | string h => exact h
  | integer => simp [IsProper, isWhole_toDigits]
  | decimal h => exact h
  | boolean b =>
    cases b with
    | false => exact .inr rfl
    | true => exact .inl rfl
  | null => rfl

theorem forall_isProper_parens {ls : List Lexeme} (h : ∀ l ∈ ls, l.IsProper) :
    ∀ l ∈ Lexeme.separator "(" :: ls ++ [.separator ")"], l.IsProper := by
  simp only [List.forall_mem_cons, List.forall_mem_append]
  exact ⟨⟨Lexeme.isProper_separator (by simp), h⟩, Lexeme.isProper_separator (by simp), by simp⟩

mutual

theorem Expr.Renders.isProper : ∀ {n min : Nat} {e : Expr} {ls : List Lexeme},
    e.Renders n min ls → ∀ l ∈ ls, l.IsProper
  | _, _, _, _, .literal h => List.forall_mem_singleton.2 h.isProper
  | _, _, _, _, .name h => List.forall_mem_singleton.2 h
  | _, _, _, _, .call h ha =>
    List.forall_mem_cons.2 ⟨h, forall_isProper_parens ha.isProper⟩
  | _, _, _, _, .externalCall hm hf ha => by
    have hs : (Lexeme.separator "::").IsProper := Lexeme.isProper_separator (by simp)
    refine List.forall_mem_cons.2 ⟨hm, List.forall_mem_cons.2 ⟨hs, ?_⟩⟩
    exact List.forall_mem_cons.2 ⟨hf, forall_isProper_parens ha.isProper⟩
  | _, _, _, _, @Expr.Renders.binary _ _ op _ _ _ _ _ hl hr =>
    List.forall_mem_append.2
      ⟨hl.isProper, List.forall_mem_cons.2 ⟨Lexeme.isProper_operator op, hr.isProper⟩⟩
  | _, _, _, _, .group h => forall_isProper_parens h.isProper

theorem Expr.RendersArguments.isProper : ∀ {n : Nat} {es : List Expr} {ls : List Lexeme},
    Expr.RendersArguments n es ls → ∀ l ∈ ls, l.IsProper
  | _, _, _, .nil => by simp
  | _, _, _, .single h => h.isProper
  | _, _, _, .cons h hs =>
    List.forall_mem_append.2 ⟨h.isProper,
      List.forall_mem_cons.2 ⟨Lexeme.isProper_separator (by simp), hs.isProper⟩⟩

end

theorem RendersType.isProper {typeName : String} {ls : List Lexeme} (h : RendersType typeName ls) :
    ∀ l ∈ ls, l.IsProper := by
  cases h with
  | default => simp
  | written h =>
    have hs : (Lexeme.separator "::").IsProper := Lexeme.isProper_separator (by simp)
    exact List.forall_mem_cons.2 ⟨hs, List.forall_mem_singleton.2 h⟩

theorem RendersInit.isProper {n : Nat} {init : Option Expr} {ls : List Lexeme}
    (h : RendersInit n init ls) : ∀ l ∈ ls, l.IsProper := by
  cases h with
  | none => simp
  | some h => exact List.forall_mem_cons.2 ⟨Lexeme.isProper_operator .assign, h.isProper⟩

theorem IsClosed.isProper {ls : List Lexeme} (h : IsClosed ls) : ∀ l ∈ ls, l.IsProper := by
  obtain rfl := h
  exact List.forall_mem_singleton.2 (Lexeme.isProper_separator (by simp))

theorem Lexeme.isProper_keyword {word : String} (h : word ∈ keywords) :
    (Lexeme.keyword word).IsProper := h

mutual

theorem Statement.Renders.isProper : ∀ {n : Nat} {s : Statement} {ls : List Lexeme},
    s.Renders IsClosed n ls → ∀ l ∈ ls, l.IsProper
  | _, _, _, .importFile h _ he =>
    List.forall_mem_cons.2 ⟨Lexeme.isProper_keyword (by decide),
      List.forall_mem_cons.2 ⟨h, IsClosed.isProper he⟩⟩
  | _, _, _, .function h hb => by
    have hk : (Lexeme.keyword "fn").IsProper := Lexeme.isProper_keyword (by decide)
    have ho : (Lexeme.separator "(").IsProper := Lexeme.isProper_separator (by simp)
    have hc : (Lexeme.separator ")").IsProper := Lexeme.isProper_separator (by simp)
    have hbo : (Lexeme.separator "\x7b").IsProper := Lexeme.isProper_separator (by simp)
    have hbc : (Lexeme.separator "\x7d").IsProper := Lexeme.isProper_separator (by simp)
    simp only [List.forall_mem_cons, List.forall_mem_append]
    exact ⟨⟨hk, h, ho, hc, hbo, hb.isProper⟩, hbc, by simp⟩
  | _, _, _, .declaration h ht hi he => by
    have hk : (Lexeme.keyword "let").IsProper := Lexeme.isProper_keyword (by decide)
    simp only [List.forall_mem_cons, List.forall_mem_append]
    exact ⟨⟨⟨hk, h, ht.isProper⟩, hi.isProper⟩, IsClosed.isProper he⟩
  | _, _, _, .expression h he =>
    List.forall_mem_append.2 ⟨h.isProper, IsClosed.isProper he⟩

theorem Statement.RendersAll.isProper : ∀ {n : Nat} {ss : List Statement} {ls : List Lexeme},
    Statement.RendersAll IsClosed n ss ls → ∀ l ∈ ls, l.IsProper
  | _, _, _, .nil => by simp
  | _, _, _, .cons h hs => List.forall_mem_append.2 ⟨h.isProper, hs.isProper⟩

end

/-- The text in which each of the lexemes has one blank behind it. -/
def Lexeme.spaced (ls : List Lexeme) : List Char := ls.flatMap fun l => l.spelling ++ [' ']

theorem Lexeme.endsBefore_blank (l : Lexeme) {c : Char} (hc : isBlank c = true) (cs : List Char) :
    l.EndsBefore (c :: cs) := by
  rintro _ ⟨⟩
  have hb : c = ' ' ∨ c = '\t' ∨ c = '\r' ∨ c = '\n' := by simpa [isBlank, or_assoc] using hc
  have hw : isWordPart c = false := by
    rcases hb with rfl | rfl | rfl | rfl
    all_goals decide
  obtain ⟨kind, text⟩ := l
  rcases hb with rfl | rfl | rfl | rfl
  all_goals
    cases kind
    all_goals simp [GoesOn, hw, operatorPairs]

theorem exists_tiled_spaced {ls : List Lexeme} (h : ∀ l ∈ ls, l.IsProper) (before : List Char) :
    ∃ ts, Tiled [] before (Lexeme.spaced ls) ts ∧ ts.map Token.lexeme = ls := by
  induction ls generalizing before with
  | nil => exact ⟨[], .layout .nil, rfl⟩
  | cons l ls ih =>
    rw [List.forall_mem_cons] at h
    obtain ⟨ts, ht, hts⟩ := ih h.2 (before ++ [] ++ l.spelling ++ [' '])
    have hb := ht.layout_append fun _ _ _ hg => .blank rfl hg
    have he := l.endsBefore_blank (c := ' ') rfl (Lexeme.spaced ls ++ [])
    have hl := Tiled.lexeme .nil h.1 he hb
    refine ⟨_, by simpa [Lexeme.spaced] using hl, ?_⟩
    simp [hts, Token.lexeme, Lexeme.token]

theorem shows_ofString {text : String} {ts : List Token} (h : (tokenize text).1 = .ok ts) :
    (ParserState.ofString text).Shows (ts.map Token.lexeme) :=
  ⟨ts, rfl, Lookahead.yields_of_drain h⟩

theorem Parser.ends_eof {l : Lexeme} (h : l.kind = .eof) (min : Nat) : Ends min l := by
  refine ⟨?_, ?_, ?_⟩
  · rintro rfl
    simp [Lexeme.separator] at h
  · rintro rfl
    simp [Lexeme.separator] at h
  · rintro op rfl
    simp [Lexeme.operator] at h

/-- Lexemes write one expression at most: which operators are whose operands is settled by their
precedence, and from the left among operators of the same precedence. -/
theorem Expr.Renders.unique {n : Nat} {e e' : Expr} {ls : List Lexeme} (h : e.Renders n 0 ls)
    (h' : e'.Renders n 0 ls) : e.numbered 0 = e'.numbered 0 := by
  obtain ⟨ts, ht, hts⟩ := exists_tiled_spaced h.isProper []
  rw [← String.toList_ofList (l := Lexeme.spaced _)] at ht
  have hs := shows_ofString (tokenize_of_tiled ht)
  rw [List.map_append, hts] at hs
  have hi := Parser.takesInner_expression (σ := Script) (n + 1)
  have he : Parser.Ends 0 ⟨.eof, ""⟩ := Parser.ends_eof rfl 0
  obtain ⟨s₁, h₁, -⟩ := hi n e ls rfl h _ _ 0 he _ hs rfl
  obtain ⟨s₂, h₂, -⟩ := hi n e' ls rfl h' _ _ 0 he _ hs rfl
  simpa using congrArg Prod.fst (h₁.symm.trans h₂)

theorem ofString_of_renders {p : Program} {text : String} {ts : List Token} {t : Token}
    (h : p.Renders IsClosed Parser.maxNesting (ts.map Token.lexeme))
    (ht : (tokenize text).1 = .ok (ts ++ [t])) : (Program.ofString text).1 = .ok p.numbered := by
  have hl : t.lexeme.kind = .eof := by
    obtain ⟨rfl, -⟩ := isProper_of_tokenize ht
    rfl
  have hs := shows_ofString ht
  rw [List.map_append] at hs
  obtain ⟨s', hp, -⟩ := Parser.takes_program h hl _ hs rfl
  simp [Program.ofString, hp]

theorem ofString_spaced {p : Program} {ls : List Lexeme}
    (h : p.Renders IsClosed Parser.maxNesting ls) :
    (Program.ofString (.ofList (Lexeme.spaced ls))).1 = .ok p.numbered := by
  obtain ⟨ts, ht, rfl⟩ := exists_tiled_spaced h.isProper []
  rw [← String.toList_ofList (l := Lexeme.spaced _)] at ht
  exact ofString_of_renders h (tokenize_of_tiled ht)

def product (i j : NodeId) : Program :=
  ⟨[.variable "x" "any" (some (.binary .multiply (.binary .add (.variable i "a") (.integer 1))
    (.call j "f" [])))]⟩

theorem renders_product :
    (product 0 0).Renders IsClosed Parser.maxNesting
      [.keyword "let", .identifier "x", .operator .assign, .separator "(", .identifier "a",
        .operator .add, ⟨.integerLiteral, "1"⟩, .separator ")", .operator .multiply,
        .identifier "f", .separator "(", .separator ")", .separator ";"] := by
  have ha : IsIdentifier "a" := ⟨by decide, by decide, by decide, by decide, by decide⟩
  have hf : IsIdentifier "f" := ⟨by decide, by decide, by decide, by decide, by decide⟩
  have hx : IsIdentifier "x" := ⟨by decide, by decide, by decide, by decide, by decide⟩
  have h1 : Lexeme.Writes ⟨.integerLiteral, "1"⟩ (.integer 1) := .integer (n := 1) (by decide)
  have hs : Expr.Renders 126 0 (.binary .add (.variable 0 "a") (.integer 1))
      [.identifier "a", .operator .add, ⟨.integerLiteral, "1"⟩] :=
    .binary (Nat.zero_le _) (.name ha) (.literal h1)
  have hc : Expr.Renders 127 14 (.call 0 "f" []) [.identifier "f", .separator "(", .separator ")"] :=
    .call hf .nil
  have hp : Expr.Renders 127 0
      (.binary .multiply (.binary .add (.variable 0 "a") (.integer 1)) (.call 0 "f" [])) _ :=
    .binary (Nat.zero_le _) (.group hs) hc
  have he : IsClosed [.separator ";"] := rfl
  exact .cons (.declaration hx .default (.some hp) he) .nil

theorem ofString_product :
    (Program.ofString "let x = ( a + 1 ) * f ( ) ; ").1 = .ok (product 0 1) := by
  have h := ofString_spaced renders_product
  exact h

/-- A text whose lexemes are a program written out is read as that program, its mentions numbered
in the order in which they are read; so is the text that has a blank behind each of the lexemes. -/
theorem parse_of_renders {p : Program} {ls : List Lexeme}
    (h : p.Renders IsClosed Parser.maxNesting ls) :
    (∀ text ts t, (tokenize text).1 = .ok (ts ++ [t]) → ts.map Token.lexeme = ls →
      (Program.ofString text).1 = .ok p.numbered) ∧
    (Program.ofString (.ofList (Lexeme.spaced ls))).1 = .ok p.numbered := by
  refine ⟨fun text ts t ht hl => ?_, ofString_spaced h⟩
  rw [← hl] at h
  exact ofString_of_renders h ht

theorem parse_product :
    (Program.ofString "let x = ( a + 1 ) * f ( ) ; ").1 = .ok (product 0 1) :=
  (parse_of_renders renders_product).2

theorem run_program_of_ofString {text : String} {p : Program}
    (h : (Program.ofString text).1 = .ok p) :
    ∃ s', Parser.program.run (.ofString text) = (.ok p, s') := by
  rcases hr : Parser.program.run (.ofString text) with ⟨r, s'⟩
  simp only [Program.ofString, hr] at h
  exact ⟨s', by rw [h]⟩

/-- The mentions of a program that is read are numbered in the order in which they are read. -/
theorem mentions_of_ofString {text : String} {p : Program}
    (h : (Program.ofString text).1 = .ok p) :
    (Statement.mentionsAll p.statements).map Mention.id =
      List.range (Statement.mentionsAll p.statements).length := by
  obtain ⟨s', hr⟩ := run_program_of_ofString h
  obtain ⟨ls, t, hls, -⟩ := Parser.reads_program hr
  rw [List.range_eq_range', hls.ids_eq, List.length_map]
  rfl

theorem exists_renders_of_ofString {text : String} {p : Program}
    (h : (Program.ofString text).1 = .ok p) :
    ∃ ts l, (tokenize text).1 = .ok (ts ++ [.eof l]) ∧
      p.Renders IsClosable Parser.maxNesting (ts.map Token.lexeme) := by
  obtain ⟨s', hr⟩ := run_program_of_ofString h
  obtain ⟨ls, t, hls, ht, -, hw⟩ := Parser.reads_program hr
  obtain ⟨ts, rfl, hy⟩ := hls.yields
  have hd : (tokenize text).1 = .ok (ts ++ [t]) := Lookahead.drain_of_yields (hy _ ht)
  obtain ⟨rfl, hp⟩ := isProper_of_tokenize hd
  exact ⟨ts, _, hd, hw (by simpa using hp)⟩

/-- The lexemes of a text that is read are the program written out, and none of its expressions can
be read out of its lexemes in another way: lexemes write one expression at most. -/
theorem renders_of_parse {text : String} {p : Program} (h : (Program.ofString text).1 = .ok p) :
    (∃ ts l, (tokenize text).1 = .ok (ts ++ [.eof l]) ∧
      p.Renders IsClosable Parser.maxNesting (ts.map Token.lexeme)) ∧
    ∀ (n : Nat) (e e' : Expr) (ls : List Lexeme), e.Renders n 0 ls → e'.Renders n 0 ls →
      e.numbered 0 = e'.numbered 0 :=
  ⟨exists_renders_of_ofString h, fun _ _ _ _ he he' => he.unique he'⟩

theorem renders_of_parse_product :
    (Program.ofString "let x = ( a + 1 ) * f ( ) ; ").1 = .ok (product 0 1) ∧ ∃ ts l,
      (tokenize "let x = ( a + 1 ) * f ( ) ; ").1 = .ok (ts ++ [.eof l]) ∧
        (product 0 1).Renders IsClosable Parser.maxNesting (ts.map Token.lexeme) :=
  ⟨ofString_product, (renders_of_parse ofString_product).1⟩

end FlatScript
