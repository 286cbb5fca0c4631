import FlatScript.Proofs.Batch
import FlatScript.Proofs.Composition
import FlatScript.Proofs.Decimal

namespace FlatScript

/-! ### Integers in programs -/

mutual

def Expr.integers : Expr → List Int64
  | .integer n => [n]
  | .string _ | .decimal _ | .boolean _ | .null | .variable _ _ => []
  | .call _ _ args => Expr.integersAll args
  | .externalCall _ _ args => Expr.integersAll args
  | .binary _ left right => left.integers ++ right.integers

def Expr.integersAll : List Expr → List Int64
  | [] => []
  | e :: es => e.integers ++ Expr.integersAll es

end

mutual

def Statement.integers : Statement → List Int64
  | .importFile _ => []
  | .function _ body => Statement.integersAll body
  | .variable _ _ init => (init.map Expr.integers).getD []
  | .expression e => e.integers

def Statement.integersAll : List Statement → List Int64
  | [] => []
  | s :: ss => s.integers ++ Statement.integersAll ss

end

/-- The numbers that the digits of the integers among the lexemes denote. -/
def Lexeme.numbers (ls : List Lexeme) : List Int :=
  (ls.filter (·.kind = .integerLiteral)).map fun l => (ofDigits l.text.toList : Int)

namespace Lexeme

@[simp] theorem numbers_nil : numbers [] = [] := rfl

@[simp] theorem numbers_append (ls ls' : List Lexeme) :
    numbers (ls ++ ls') = numbers ls ++ numbers ls' := by
  simp [numbers]

section

variable (ls : List Lexeme)

@[simp] theorem numbers_separator (text : String) :
    numbers (separator text :: ls) = numbers ls := rfl

@[simp] theorem numbers_operator (op : Operator) : numbers (operator op :: ls) = numbers ls := rfl

@[simp] theorem numbers_identifier (name : String) :
    numbers (identifier name :: ls) = numbers ls := rfl

@[simp] theorem numbers_keyword (word : String) : numbers (keyword word :: ls) = numbers ls := rfl

@[simp] theorem numbers_string (s : String) : numbers (string s :: ls) = numbers ls := rfl

end

theorem Writes.numbers_eq {l : Lexeme} {e : Expr} (h : l.Writes e) :
    numbers [l] = e.integers.map Int64.toInt := by
  cases h with
  | @integer n hn =>
    have hi : (Int64.ofNat n).toInt = n := Int64.toInt_ofNat_of_lt hn
    simp [numbers, Expr.integers, Nat.toList_repr, ofDigits_toDigits, hi]
  | string | decimal | boolean | null => rfl

end Lexeme

mutual

theorem Expr.Renders.numbers_eq : ∀ {n min : Nat} {e : Expr} {ls : List Lexeme},
    e.Renders n min ls → Lexeme.numbers ls = e.integers.map Int64.toInt
  | _, _, _, _, .literal h => h.numbers_eq
  | _, _, _, _, .name _ => rfl
  | _, _, _, _, .call _ ha => by simp [Expr.integers, ha.numbers_eq]
  | _, _, _, _, .externalCall _ _ ha => by simp [Expr.integers, ha.numbers_eq]
  | _, _, _, _, .binary _ hl hr => by simp [Expr.integers, hl.numbers_eq, hr.numbers_eq]
  | _, _, _, _, .group h => by simp [h.numbers_eq]

theorem Expr.RendersArguments.numbers_eq : ∀ {n : Nat} {es : List Expr} {ls : List Lexeme},
    Expr.RendersArguments n es ls → Lexeme.numbers ls = (Expr.integersAll es).map Int64.toInt
  | _, _, _, .nil => rfl
  | _, _, _, .single h => by simp [Expr.integersAll, h.numbers_eq]
  | _, _, _, .cons h hs => by
    have ih := hs.numbers_eq
    simp only [Expr.integersAll] at ih ⊢
    simp [h.numbers_eq, ih]

end

theorem RendersType.numbers_eq {typeName : String} {ls : List Lexeme}
    (h : RendersType typeName ls) : Lexeme.numbers ls = [] := by
  cases h with
  | default | written => rfl

theorem RendersInit.numbers_eq {n : Nat} {init : Option Expr} {ls : List Lexeme}
    (h : RendersInit n init ls) :
    Lexeme.numbers ls = ((init.map Expr.integers).getD []).map Int64.toInt := by
  cases h with
  | none => rfl
  | some h => simp [h.numbers_eq]

theorem IsClosable.numbers_eq {ls : List Lexeme} (h : IsClosable ls) : Lexeme.numbers ls = [] := by
  rcases h with rfl | rfl
  · rfl
  · rfl

mutual

theorem Statement.Renders.numbers_eq : ∀ {n : Nat} {s : Statement} {ls : List Lexeme},
    s.Renders IsClosable n ls → Lexeme.numbers ls = s.integers.map Int64.toInt
  | _, _, _, .importFile _ _ he => by simp [Statement.integers, IsClosable.numbers_eq he]
  | _, _, _, .function _ hb => by simp [Statement.integers, hb.numbers_eq]
  | _, _, _, .declaration _ ht hi he => by
    simp [Statement.integers, ht.numbers_eq, hi.numbers_eq, IsClosable.numbers_eq he]
  | _, _, _, .expression h he => by
    simp [Statement.integers, h.numbers_eq, IsClosable.numbers_eq he]

theorem Statement.RendersAll.numbers_eq : ∀ {n : Nat} {ss : List Statement} {ls : List Lexeme},
    Statement.RendersAll IsClosable n ss ls →
      Lexeme.numbers ls = (Statement.integersAll ss).map Int64.toInt
  | _, _, _, .nil => rfl
  | _, _, _, .cons h hs => by simp [Statement.integersAll, h.numbers_eq, hs.numbers_eq]

end

/-! ### What a buffer gives -/

namespace Lookahead

variable {σ : Type} [TokenSource σ] {l l' : Lookahead σ} {t u : Token}

/-- The token comes out of the buffer when one after the other is taken, and no fault before it. -/
def Gives (l : Lookahead σ) (t : Token) : Prop :=
  ∃ k, l.answer k = .ok t ∧ ∀ i < k, ∃ u, l.answer i = .ok u

theorem gives_first (h : l.answer 0 = .ok t) : l.Gives t :=
  ⟨0, h, fun _ hi => absurd hi (Nat.not_lt_zero _)⟩

theorem gives_of_next (h : l.next = (.ok u, l')) (hg : l'.Gives t) : l.Gives t := by
  obtain ⟨k, hk, hlt⟩ := hg
  have ha : ∀ i, l.answer (i + 1) = l'.answer i := fun i => by rw [← answer_next, h]
  refine ⟨k + 1, (ha k).trans hk, fun i hi => ?_⟩
  cases i with
  | zero => exact ⟨u, congrArg Prod.fst h⟩
  | succ i =>
    rw [ha]
    exact hlt i (Nat.lt_of_succ_lt_succ hi)

theorem gives_congr (h : ∀ k, l'.answer k = l.answer k) : l'.Gives t ↔ l.Gives t := by
  simp only [Gives, h]

end Lookahead

namespace Parser

variable {σ : Type} [TokenSource σ] {α β : Type} {s : ParserState σ}

/-- From `s` on, a literal that the parser rejects is a token that waits in front of it, and what
waits behind the parser has waited in front of it. -/
structure Traces (s : ParserState σ) (p : Parser σ α) : Prop where
  gives : ∀ {a : α} {s' : ParserState σ} {t : Token}, p.run s = (.ok a, s') →
    s'.tokens.Gives t → s.tokens.Gives t
  literal : ∀ {kind : NumberKind} {text : String} {place : Location},
    (p.run s).1 = .error (.invalidLiteral kind text place) →
      ∃ t, s.tokens.Gives t ∧ literal? t = some (.error (.invalidLiteral kind text place))

theorem Traces.bind {p : Parser σ α} {f : α → Parser σ β} (hp : Traces s p)
    (hf : ∀ a s', p.run s = (.ok a, s') → Traces s' (f a)) : Traces s (p >>= f) where
  gives hr ht := by
    obtain ⟨a, s₁, hr₁, hr₂⟩ := run_bind_eq_ok.1 hr
    exact hp.gives hr₁ ((hf a s₁ hr₁).gives hr₂ ht)
  literal he := by
    rw [run_bind] at he
    split at he
    next a s₁ hr =>
      obtain ⟨t, ht, hl⟩ := (hf a s₁ hr).literal he
      exact ⟨t, hp.gives hr ht, hl⟩
    next e s₁ hr =>
      obtain rfl := Except.error.inj he
      exact hp.literal (by rw [hr])

theorem traces_ofTokens {step : Lookahead σ → Except LexError Token × Lookahead σ}
    {hs : ∀ l, (step l).2.size ≤ l.size}
    (h : ∀ {l l' t u}, step l = (.ok t, l') → l'.Gives u → l.Gives u) (s : ParserState σ) :
    Traces s (ofTokens step hs) where
  gives hr := h (run_ofTokens_eq_ok.1 hr).1
  literal he := by
    simp only [ofTokens] at he
    split at he
    · cases he
    · cases he

theorem traces_next (s : ParserState σ) : Traces s next := traces_ofTokens Lookahead.gives_of_next s

theorem traces_pure (s : ParserState σ) (a : α) : Traces s (pure a) where
  gives hr ht := by
    obtain ⟨-, rfl⟩ := run_pure_eq_ok.1 hr
    exact ht
  literal he := by cases he

theorem traces_fail {e : ParseError}
    (h : ∀ {kind text place}, e = .invalidLiteral kind text place →
      ∃ t, s.tokens.Gives t ∧ literal? t = some (.error e)) :
    Traces s (fail e : Parser σ α) where
  gives hr _ := absurd hr run_fail_ne_ok
  literal he := by
    obtain rfl := Except.error.inj he
    exact h rfl

theorem traces_literal {t : Token} {r : Except ParseError Expr} (ht : s.answer 0 = .ok t)
    (hl : literal? t = some r) :
    Traces s (do
      let _ ← next
      ofExcept r) := by
  cases r with
  | ok e => exact (traces_next s).bind fun _ s₁ _ => traces_pure s₁ e
  | error e =>
    refine ⟨fun hr _ => ?_, fun he => ?_⟩
    · obtain ⟨_, _, -, hf⟩ := run_bind_eq_ok.1 hr
      exact absurd hf run_fail_ne_ok
    · obtain ⟨s₁, hn, -⟩ := looks_next.exists_run ht
      rw [run_bind, hn] at he
      obtain rfl := Except.error.inj he
      exact ⟨t, Lookahead.gives_first ht, hl⟩

theorem composes_traces : Composes (@Traces σ _) where
  pure := traces_pure
  bind := Traces.bind
  next := traces_next
  peek := traces_ofTokens fun hp => (Lookahead.gives_congr (Lookahead.answer_peek hp)).1
  peek2 := traces_ofTokens fun hp => (Lookahead.gives_congr (Lookahead.answer_peek2 hp)).1
  fresh s := by
    refine ⟨fun hr ht => ?_, fun he => by cases he⟩
    rwa [(run_fresh_eq_ok.1 hr).2.1] at ht
  fail s c t hc := traces_fail fun he => by
    cases c with
    | literal kind => exact absurd rfl (hc kind)
    | unexpected expected =>
      rw [Complaint.about] at he
      split at he
      · cases he
      · cases he
    | importPath | reserved | tooDeep => cases he
  literal := traces_literal

end Parser

/-! ### Tokens of a text -/

/-- The token is one of those that tile the text up to its end or up to its first fault. -/
def Token.StandsIn (t : Token) (text : String) : Prop :=
  ∃ ts head behind, text.toList = head ++ behind ∧ Tiled behind [] head ts ∧
    (behind = [] ∨ ∃ cause : LexError.Cause, cause.Begins behind) ∧ t ∈ ts

theorem Token.StandsIn.isProper {t : Token} {text : String} (h : t.StandsIn text) :
    t.lexeme.IsProper := by
  obtain ⟨ts, head, behind, -, ht, -, hm⟩ := h
  exact ht.isProper t hm

theorem Token.standsIn_iff {text : String} {ts : List Token} {t u : Token}
    (h : (tokenize text).1 = .ok (ts ++ [u])) : t.StandsIn text ↔ t ∈ ts := by
  constructor
  · rintro ⟨us, head, behind, happ, ht, rfl | ⟨cause, hc⟩, hm⟩
    · rw [List.append_nil] at happ
      rw [tokenize_of_tiled (happ ▸ ht), Except.ok.injEq] at h
      exact (List.append_inj' h rfl).1 ▸ hm
    · rw [tokenize_of_begins happ ht hc] at h
      exact nomatch h
  · exact fun hm => ⟨ts, text.toList, [], by simp, (tiled_of_tokenize h).2, .inl rfl, hm⟩

theorem standsIn_of_gives {text : String} {t : Token}
    (hg : (ParserState.ofString text).tokens.Gives t) : t.StandsIn text ∨ t.isEof = true := by
  obtain ⟨ts, head, behind, happ, ht, hb⟩ := exists_tiled [] text.toList
  obtain ⟨ws, ha⟩ := Lexer.answer_of_tiled ht []
  rw [← happ] at ha
  have ha : ∀ k, (ParserState.ofString text).tokens.answer k = _ := ha
  obtain ⟨k, hk, hlt⟩ := hg
  by_cases hkt : k < ts.length
  · rw [ha, List.getElem?_eq_getElem hkt] at hk
    obtain rfl := Except.ok.inj hk
    exact .inl ⟨ts, head, behind, happ, ht, hb, List.getElem_mem hkt⟩
  rcases hb with rfl | ⟨cause, hc⟩
  · rw [ha, List.getElem?_eq_none (Nat.le_of_not_lt hkt), Lexer.answer_end] at hk
    obtain rfl := Except.ok.inj hk
    exact .inr rfl
  · -- The fault comes before whatever is given behind the lexemes.
    have hu : ∃ u, (ParserState.ofString text).tokens.answer ts.length = .ok u := by
      rcases Nat.eq_or_lt_of_le (Nat.le_of_not_lt hkt) with heq | hlt'
      · exact ⟨t, heq ▸ hk⟩
      · exact hlt _ hlt'
    obtain ⟨u, hu⟩ := hu
    rw [ha, List.getElem?_eq_none (Nat.le_refl _), Nat.sub_self, Lexer.answer_fault hc] at hu
    exact nomatch hu

/-! ### Literals -/

theorem exists_read_of_isDecimal {cs : List Char} (h : IsDecimal cs) :
    ∃ d, Decimal.read? cs = some d := by
  obtain ⟨whole, fraction, rfl, hf, hw | ⟨rfl, hne⟩⟩ := h
  · exact ⟨_, Decimal.read_point hw.2.1 hf (by simp [hw.1])⟩
  · exact ⟨_, Decimal.read_point nofun hf (by simpa using hne)⟩

theorem le_of_readInt64_eq_none {cs : List Char} (h : IsWhole cs) (hn : readInt64? cs = none) :
    Nat.pow 2 63 ≤ ofDigits cs := by
  simpa [readInt64?, readNat_of_isWhole h] using hn

example : readInt64? "9223372036854775808".toList = none ∧
    readInt64? "9223372036854775807".toList = some 9223372036854775807 := by
  decide +kernel

/-- The only tokens of a text that are literals and rejected are the integers that are too large. -/
theorem Parser.literal_eq_error {t : Token} {e : ParseError} (hp : t.lexeme.IsProper)
    (h : literal? t = some (.error e)) :
    t.kind = .integerLiteral ∧ e = .invalidLiteral .integer t.text t.location ∧
      Nat.pow 2 63 ≤ ofDigits t.text.toList := by
  obtain ⟨kind, text, place⟩ := t
  cases kind with
  | integerLiteral =>
    cases hr : readInt64? text.toList with
    | some n => simp [literal?, hr] at h
    | none =>
      refine ⟨rfl, ?_, le_of_readInt64_eq_none hp hr⟩
      simpa [literal?, hr, eq_comm] using h
  | decimalLiteral =>
    obtain ⟨d, hd⟩ : ∃ d, Decimal.read? text.toList = some d := exists_read_of_isDecimal hp
    simp [literal?, hd] at h
  | _ => simp [literal?] at h

theorem exists_token_of_invalidLiteral {text w : String} {kind : NumberKind} {place : Location}
    (h : (Program.ofString text).1 = .error (.invalidLiteral kind w place)) :
    kind = .integer ∧ ∃ t : Token, t.StandsIn text ∧ t.kind = .integerLiteral ∧ t.text = w ∧
      t.location = place ∧ Nat.pow 2 63 ≤ ofDigits t.text.toList := by
  have hr : (Parser.program.run (.ofString text)).1 = .error (.invalidLiteral kind w place) := h
  obtain ⟨t, hg, hl⟩ := (Parser.composes_traces.program (.ofString text)).literal hr
  have hs : t.StandsIn text := by
    refine (standsIn_of_gives hg).resolve_right fun he => ?_
    exact absurd he (by simp [(Parser.kind_of_literal hl).2.2])
  obtain ⟨hk, he, hle⟩ := Parser.literal_eq_error hs.isProper hl
  obtain ⟨rfl, rfl, rfl⟩ : kind = .integer ∧ w = t.text ∧ place = t.location := by simpa using he
  exact ⟨rfl, t, hs, hk, rfl, rfl, hle⟩

theorem Lexeme.mem_numbers {l : Lexeme} {ls : List Lexeme} (h : l ∈ ls)
    (hk : l.kind = .integerLiteral) : (ofDigits l.text.toList : Int) ∈ numbers ls :=
  List.mem_map.2 ⟨l, List.mem_filter.2 ⟨h, by simpa using hk⟩, rfl⟩

/-- Number literals are read as they are written. The integers of a program that is read are the
numbers that its integer tokens denote, in order, and those are below 2 ^ 63. No decimal literal is
rejected, and an integer literal only if its token denotes 2 ^ 63 or more. -/
theorem ofString_numbers (text : String) :
    (∀ w place, (Program.ofString text).1 ≠ .error (.invalidLiteral .decimal w place)) ∧
    (∀ p, (Program.ofString text).1 = .ok p →
      ∃ ts l, (tokenize text).1 = .ok (ts ++ [.eof l]) ∧
        (Statement.integersAll p.statements).map Int64.toInt =
          Lexeme.numbers (ts.map Token.lexeme) ∧
        ∀ t : Token, t.StandsIn text → t.kind = .integerLiteral →
          ofDigits t.text.toList < Nat.pow 2 63) ∧
    ∀ kind w place, (Program.ofString text).1 = .error (.invalidLiteral kind w place) →
      ∃ t : Token, t.StandsIn text ∧ t.kind = .integerLiteral ∧ t.text = w ∧ t.location = place ∧
        Nat.pow 2 63 ≤ ofDigits t.text.toList := by
  refine ⟨fun w place h => ?_, fun p h => ?_, fun kind w place h => ?_⟩
  · exact nomatch (exists_token_of_invalidLiteral h).1
  · obtain ⟨ts, l, ht, hp⟩ := exists_renders_of_ofString h
    have hn := hp.numbers_eq
    refine ⟨ts, l, ht, hn.symm, fun t hs hk => ?_⟩
    have hl : t.lexeme ∈ ts.map Token.lexeme :=
      List.mem_map_of_mem ((Token.standsIn_iff ht).1 hs)
    have hi := Lexeme.mem_numbers hl hk
    rw [hn] at hi
    obtain ⟨n, -, hd⟩ := List.mem_map.1 hi
    have hlt := n.toInt_lt
    rw [hd] at hlt
    exact_mod_cast hlt
  · exact (exists_token_of_invalidLiteral h).2

end FlatScript
