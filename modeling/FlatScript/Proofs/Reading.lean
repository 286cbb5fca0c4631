import FlatScript.Proofs.Numeral
import FlatScript.Proofs.Rendering
import FlatScript.Proofs.Run
import FlatScript.Proofs.Stream

namespace FlatScript

variable {σ : Type} [TokenSource σ] {α β γ : Type}

/-- The lexemes `ls` are taken and the numbers `ids` are given out on the way from `s` to `s'`. -/
structure ParserState.Reaches (s : ParserState σ) (ls : List Lexeme) (ids : List NodeId)
    (s' : ParserState σ) : Prop where
  yields : ∃ ts : List Token, ts.map Token.lexeme = ls ∧
    ∀ us, s'.tokens.Yields us → s.tokens.Yields (ts ++ us)
  ids_eq : ids = List.range' s.nextId ids.length
  nextId_eq : s'.nextId = s.nextId + ids.length

namespace ParserState.Reaches

variable {s s' s'' : ParserState σ} {ls rs : List Lexeme} {ids js : List NodeId}

theorem of_iff (h : ∀ us, s'.tokens.Yields us ↔ s.tokens.Yields us) (hn : s'.nextId = s.nextId) :
    s.Reaches [] [] s' :=
  ⟨⟨[], rfl, fun us => (h us).1⟩, rfl, hn⟩

theorem trans (h : s.Reaches ls ids s') (h' : s'.Reaches rs js s'') :
    s.Reaches (ls ++ rs) (ids ++ js) s'' where
  yields := by
    obtain ⟨ts, rfl, hts⟩ := h.yields
    obtain ⟨us, rfl, hus⟩ := h'.yields
    refine ⟨ts ++ us, by simp, fun vs hv => ?_⟩
    rw [List.append_assoc]
    exact hts _ (hus vs hv)
  ids_eq := by
    have hj := h'.ids_eq
    rw [h.nextId_eq] at hj
    rw [List.length_append, ← List.range'_append_1, ← h.ids_eq, ← hj]
  nextId_eq := by
    rw [h'.nextId_eq, h.nextId_eq, List.length_append, Nat.add_assoc]

end ParserState.Reaches

namespace Parser

/-- When `p` ends in a result, then it has given out the numbers `ids` of the result, and it has
taken lexemes that write the result in the way `W`, provided that lexemes are what they should be. -/
def Reads (p : Parser σ α) (ids : α → List NodeId) (W : α → List Lexeme → Prop) : Prop :=
  ∀ s a s', p.run s = (.ok a, s') →
    ∃ ls, s.Reaches ls (ids a) s' ∧ ((∀ l ∈ ls, l.IsProper) → W a ls)

variable {s s' : ParserState σ} {t : Token}

theorem reaches_peek (h : peek.run s = (.ok t, s')) : s.Reaches [] [] s' := by
  obtain ⟨hp, hn⟩ := run_peek_eq_ok.1 h
  exact .of_iff (fun _ => Lookahead.yields_of_peek hp) hn

theorem reaches_peek2 (h : peek2.run s = (.ok t, s')) : s.Reaches [] [] s' := by
  obtain ⟨hp, hn⟩ := run_peek2_eq_ok.1 h
  exact .of_iff (fun _ => Lookahead.yields_of_peek2 hp) hn

theorem reaches_next (h : next.run s = (.ok t, s')) (he : t.isEof = false) :
    s.Reaches [t.lexeme] [] s' := by
  obtain ⟨hn, hid⟩ := run_next_eq_ok.1 h
  exact ⟨⟨[t], rfl, fun us hu => .token hn he hu⟩, rfl, hid⟩

theorem reaches_fresh {id : NodeId} (h : fresh.run s = (.ok id, s')) : s.Reaches [] [id] s' := by
  obtain ⟨rfl, ht, hn⟩ := run_fresh_eq_ok.1 h
  exact ⟨⟨[], rfl, fun us hu => ht ▸ hu⟩, rfl, hn⟩

theorem reaches_accept_none {pick : Token → Option α}
    (h : (accept? pick).run s = (.ok none, s')) : s.Reaches [] [] s' := by
  obtain ⟨t, hp, -⟩ := run_accept_eq_none.1 h
  exact reaches_peek hp

theorem reaches_accept_some {pick : Token → Option α} {a : α}
    (h : (accept? pick).run s = (.ok (some a), s')) :
    ∃ t, s.Reaches [t.lexeme] [] s' ∧ pick t = some a := by
  obtain ⟨t, s₁, hp, he, ha, hn⟩ := run_accept_eq_some.1 h
  exact ⟨t, (reaches_peek hp).trans (reaches_next hn he), ha⟩

theorem reaches_identifier {expected : Expectation} {name : String}
    (h : (identifier expected).run s = (.ok name, s')) : s.Reaches [.identifier name] [] s' := by
  obtain ⟨t, s₁, hn, h⟩ := run_bind_eq_ok.1 h
  split at h
  next hk =>
    obtain ⟨rfl, rfl⟩ := run_pure_eq_ok.1 h
    have ht := reaches_next hn (by simp [Token.isEof, hk])
    rwa [show t.lexeme = .identifier t.text by simp [Token.lexeme, Lexeme.identifier, hk]] at ht
  next => exact absurd h run_unexpected_ne_ok

theorem reaches_separator {text : String} {expected : Expectation}
    (h : (separator text expected).run s = (.ok (), s')) : s.Reaches [.separator text] [] s' := by
  obtain ⟨t, s₁, hn, h⟩ := run_bind_eq_ok.1 h
  split at h
  next hs =>
    obtain ⟨-, rfl⟩ := run_pure_eq_ok.1 h
    have hl := isSeparator_iff.1 hs
    have ht := reaches_next hn (by
      have hk := congrArg Lexeme.kind hl
      simp only [Token.lexeme, Lexeme.separator] at hk
      simp [Token.isEof, hk])
    rwa [hl] at ht
  next => exact absurd h run_unexpected_ne_ok

theorem reaches_skip {text : String} {found : Bool}
    (h : (skip? text).run s = (.ok found, s')) :
    s.Reaches (if found then [.separator text] else []) [] s' := by
  obtain ⟨r, s₁, ha, h⟩ := run_bind_eq_ok.1 h
  obtain ⟨rfl, rfl⟩ := run_pure_eq_ok.1 h
  cases r with
  | none => exact reaches_accept_none ha
  | some c =>
    obtain ⟨t, hr, ht⟩ := reaches_accept_some ha
    have hs : t.isSeparator text = true := (Option.ite_none_right_eq_some.1 ht).1
    rw [isSeparator_iff.1 hs] at hr
    exact hr

/-! ### Expressions -/

theorem writes_of_literal {e : Expr} (h : literal? t = some (.ok e)) (ht : t.lexeme.IsProper) :
    t.lexeme.Writes e := by
  obtain ⟨kind, text, place⟩ := t
  simp only [literal?] at h
  simp only [Token.lexeme, Lexeme.IsProper] at ht ⊢
  split at h
  next =>
    split at h
    next n hn =>
      obtain rfl : Expr.integer n = e := by simpa using h
      obtain ⟨k, hk, rfl, rfl⟩ := repr_of_readInt64 ht hn
      exact .integer hk
    next => simp at h
  next =>
    split at h
    next d hd =>
      obtain rfl : Expr.decimal (Single.ofDecimal d) = e := by simpa using h
      exact .decimal ht hd
    next => simp at h
  next =>
    obtain rfl : Expr.string text = e := by simpa using h
    exact .string ht
  next =>
    obtain rfl : Expr.boolean (text == "true") = e := by simpa using h
    rcases ht with rfl | rfl
    · exact .boolean true
    · exact .boolean false
  next =>
    obtain rfl : Expr.null = e := by simpa using h
    obtain rfl : text = "null" := ht
    exact .null
  next => simp at h

theorem mentions_of_literal {e : Expr} (h : literal? t = some (.ok e)) : e.mentions = [] := by
  simp only [literal?] at h
  repeat' split at h
  all_goals simp only [Option.some.injEq, Except.ok.injEq, reduceCtorEq] at h
  all_goals rw [← h, Expr.mentions]

/-- The next token, if there is one, is no operator that binds tighter than `min`. -/
def Blocked (min : Nat) (s : ParserState σ) : Prop :=
  ∀ t s', peek.run s = (.ok t, s') → tighter? min t = none

theorem blocked_maxPrecedence (s : ParserState σ) : Blocked Operator.maxPrecedence s := by
  intro t s' _
  rw [Option.eq_none_iff_forall_ne_some]
  rintro ⟨op, h⟩ -
  have := op.precedence_le
  omega

theorem Blocked.precedence_le {bound min : Nat} {op : { op : Operator // min < op.precedence }}
    (hb : Blocked bound s) (h : (accept? (tighter? min)).run s = (.ok (some op), s')) :
    op.val.precedence ≤ bound := by
  obtain ⟨t, s₁, hp, -, ht, -⟩ := run_accept_eq_some.1 h
  refine Nat.le_of_not_lt fun hlt => ?_
  have hl := tighter_eq_some.1 ht
  have hs : tighter? bound t = some ⟨op.val, hlt⟩ := tighter_eq_some.2 hl
  rw [hb t s₁ hp] at hs
  simp at hs

theorem blocked_of_accept_eq_none {min : Nat}
    (h : (accept? (tighter? min)).run s = (.ok none, s')) : Blocked min s' := by
  obtain ⟨t, hp, ht⟩ := run_accept_eq_none.1 h
  intro u s'' hu
  obtain ⟨rfl, -⟩ : t = u ∧ _ := by simpa [peek_of_peek hp] using hu
  rcases ht with he | ht
  · have hk : t.kind = .eof := by simpa [Token.isEof] using he
    simp [tighter?, hk]
  · exact ht

section Expressions

def ReadsInner (p : Parser σ Expr) (n : Nat) : Prop :=
  Reads p (·.mentions.map Mention.id) fun e ls => ∃ m, n = m + 1 ∧ e.Renders m 0 ls

variable {expression : Parser σ Expr} {n : Nat} (he : ReadsInner expression n)

include he

theorem reads_laterArguments {rest : List Expr}
    (h : ManyRuns (fun t => if t.isSeparator "," then some () else none) (fun _ => expression)
      s rest s') :
    ∃ ls, s.Reaches ls ((Expr.mentionsAll rest).map Mention.id) s' ∧
      ((∀ l ∈ ls, l.IsProper) → ∀ e fs, (∃ m, n = m + 1 ∧ e.Renders m 0 fs) →
        Expr.RendersArguments n (e :: rest) (fs ++ ls)) := by
  induction h with
  | done h =>
    refine ⟨[], reaches_accept_none h, ?_⟩
    rintro - e fs ⟨m, rfl, hr⟩
    simpa using Expr.RendersArguments.single hr
  | @round s s₁ s₂ s' _ e' rest h hp _ ih =>
    obtain ⟨t, ht, hs⟩ := reaches_accept_some h
    obtain ⟨rs, hrs, hr⟩ := he _ _ _ hp
    obtain ⟨ls, hls, hl⟩ := ih
    have hs : t.isSeparator "," = true := (Option.ite_none_right_eq_some.1 hs).1
    rw [isSeparator_iff.1 hs] at ht
    refine ⟨_, by simpa [Expr.mentionsAll] using ht.trans (hrs.trans hls), ?_⟩
    rintro hp e fs ⟨m, rfl, hf⟩
    simp only [List.forall_mem_cons, List.forall_mem_append] at hp
    exact .cons hf (hl hp.2.2 e' rs (hr hp.2.1))

theorem reads_arguments : Reads (arguments expression)
    (fun es => (Expr.mentionsAll es).map Mention.id)
    (fun es ls => ∃ as, ls = .separator "(" :: as ++ [.separator ")"] ∧
      Expr.RendersArguments n es as) := by
  intro s es s' h
  simp only [arguments, run_bind_eq_ok] at h
  obtain ⟨_, s₁, ho, found, s₂, hc, h⟩ := h
  have ho := reaches_separator ho
  have hc := reaches_skip hc
  cases found with
  | true =>
    obtain ⟨rfl, rfl⟩ := run_pure_eq_ok.1 h
    exact ⟨_, ho.trans hc, fun _ => ⟨[], rfl, .nil⟩⟩
  | false =>
    simp only [Bool.false_eq_true, if_false, run_bind_eq_ok, run_pure_eq_ok, run_many_eq_ok] at h hc
    obtain ⟨e, s₃, hf, rest, s₄, hm, _, s₅, hs, rfl, rfl⟩ := h
    obtain ⟨fs, hfs, hf⟩ := he _ _ _ hf
    obtain ⟨ls, hls, hl⟩ := reads_laterArguments he hm
    have hs := reaches_separator hs
    refine ⟨.separator "(" :: (fs ++ ls) ++ [.separator ")"], ?_, fun hp => ?_⟩
    · simpa [Expr.mentionsAll] using ho.trans (hc.trans (hfs.trans (hls.trans hs)))
    · simp only [List.forall_mem_cons, List.forall_mem_append] at hp
      exact ⟨_, rfl, hl hp.1.2.2 e fs (hf hp.1.2.1)⟩

theorem reads_reference : Reads (reference expression) (·.mentions.map Mention.id)
    (Expr.Renders n (Operator.maxPrecedence + 1)) := by
  intro s e s' h
  simp only [reference, run_bind_eq_ok] at h
  obtain ⟨after, s₁, hp, name, s₂, hn, h⟩ := h
  have hp := reaches_peek2 hp
  have hn := reaches_identifier hn
  split at h
  next =>
    simp only [run_bind_eq_ok, run_pure_eq_ok] at h
    obtain ⟨_, s₃, hs, function, s₄, hf, es, s₅, ha, rfl, rfl⟩ := h
    have hs := reaches_separator hs
    have hf := reaches_identifier hf
    obtain ⟨ls, hls, ha⟩ := reads_arguments he _ _ _ ha
    refine ⟨.identifier name :: .separator "::" :: .identifier function :: ls, ?_, fun hp => ?_⟩
    · simpa [Expr.mentions] using hp.trans (hn.trans (hs.trans (hf.trans hls)))
    · simp only [List.forall_mem_cons] at hp
      obtain ⟨as, rfl, hr⟩ := ha hp.2.2.2
      exact .externalCall hp.1 hp.2.2.1 hr
  next =>
    obtain ⟨id, s₃, hid, h⟩ := run_bind_eq_ok.1 h
    have hid := reaches_fresh hid
    split at h
    next =>
      simp only [run_bind_eq_ok, run_pure_eq_ok] at h
      obtain ⟨es, s₄, ha, rfl, rfl⟩ := h
      obtain ⟨ls, hls, ha⟩ := reads_arguments he _ _ _ ha
      refine ⟨.identifier name :: ls, ?_, fun hp => ?_⟩
      · simpa [Expr.mentions] using hp.trans (hn.trans (hid.trans hls))
      · simp only [List.forall_mem_cons] at hp
        obtain ⟨as, rfl, hr⟩ := ha hp.2
        exact .call hp.1 hr
    next =>
      obtain ⟨rfl, rfl⟩ := run_pure_eq_ok.1 h
      refine ⟨[.identifier name], ?_, fun hp => ?_⟩
      · simpa [Expr.mentions] using hp.trans (hn.trans hid)
      · exact .name (hp (.identifier name) (by simp))

theorem reads_group : Reads (group expression) (·.mentions.map Mention.id)
    (Expr.Renders n (Operator.maxPrecedence + 1)) := by
  intro s e s' h
  simp only [group, run_bind_eq_ok, run_pure_eq_ok] at h
  obtain ⟨_, s₁, ho, e, s₂, h, _, s₃, hc, rfl, rfl⟩ := h
  have ho := reaches_separator ho
  have hc := reaches_separator hc
  obtain ⟨ls, hls, hl⟩ := he _ _ _ h
  refine ⟨.separator "(" :: ls ++ [.separator ")"], ?_, fun hp => ?_⟩
  · simpa using ho.trans (hls.trans hc)
  · simp only [List.forall_mem_cons, List.forall_mem_append] at hp
    obtain ⟨m, rfl, hr⟩ := hl hp.1.2
    exact .group hr

theorem reads_operand : Reads (operand expression) (·.mentions.map Mention.id)
    (Expr.Renders n (Operator.maxPrecedence + 1)) := by
  intro s e s' h
  obtain ⟨t, s₁, hp, h⟩ := run_bind_eq_ok.1 h
  have hp := reaches_peek hp
  have hb : ∃ ls, s₁.Reaches ls (e.mentions.map Mention.id) s' ∧
      ((∀ l ∈ ls, l.IsProper) → e.Renders n (Operator.maxPrecedence + 1) ls) := by
    split at h
    next => exact reads_reference he _ _ _ h
    next =>
      split at h
      next => exact reads_group he _ _ _ h
      next =>
        obtain ⟨r, s₂, ha, h⟩ := run_bind_eq_ok.1 h
        cases r with
        | none => exact absurd h run_unexpected_ne_ok
        | some r =>
          obtain ⟨rfl, rfl⟩ := run_ofExcept_eq_ok.1 h
          obtain ⟨u, hu, hl⟩ := reaches_accept_some ha
          have hm := mentions_of_literal hl
          refine ⟨_, by simpa [hm] using hu, fun hp => ?_⟩
          exact .literal (writes_of_literal hl (hp _ (by simp)))
  obtain ⟨ls, hls, hl⟩ := hb
  exact ⟨ls, by simpa using hp.trans hls, hl⟩

/-- A chain takes all the operators that it may take, and nests them by their precedence. -/
def ReadsChain (expression : Parser σ Expr) (n min : Nat) : Prop :=
  ∀ s e s', (chain expression min).run s = (.ok e, s') → Blocked min s' ∧
    ∃ ls, s.Reaches ls (e.mentions.map Mention.id) s' ∧
      ((∀ l ∈ ls, l.IsProper) → e.Renders n (min + 1) ls)

omit he in
theorem reads_chainRest {min bound : Nat} {rest : List (Operator × Expr)}
    (ih : ∀ op : { op : Operator // min < op.precedence },
      ReadsChain expression n op.val.precedence)
    (hb : Blocked bound s)
    (h : ManyRuns (tighter? min) (fun op => do return (op.val, ← chain expression op.val.precedence))
      s rest s') :
    Blocked min s' ∧ ∃ ls, s.Reaches ls (rest.flatMap fun r => r.2.mentions.map Mention.id) s' ∧
      ((∀ l ∈ ls, l.IsProper) → Expr.RendersChain n (min + 1) bound rest ls) := by
  induction h generalizing bound with
  | done h => exact ⟨blocked_of_accept_eq_none h, [], reaches_accept_none h, fun _ => .nil⟩
  | @round s s₁ s₂ s' op r rest h hp _ ihr =>
    simp only [run_bind_eq_ok, run_pure_eq_ok] at hp
    obtain ⟨right, s₃, hc, rfl, rfl⟩ := hp
    have hop := hb.precedence_le h
    obtain ⟨t, ht, hs⟩ := reaches_accept_some h
    rw [tighter_eq_some.1 hs] at ht
    obtain ⟨hb', rs, hrs, hr⟩ := ih op _ _ _ hc
    obtain ⟨hb'', ls, hls, hl⟩ := ihr hb'
    refine ⟨hb'', .operator op :: rs ++ ls, by simpa using ht.trans (hrs.trans hls), fun hp => ?_⟩
    simp only [List.forall_mem_cons, List.forall_mem_append] at hp
    exact .cons op.property hop (hr hp.1.2) (hl hp.2)

theorem reads_chain (min : Nat) : ReadsChain expression n min := by
  induction min using chain.induct with
  | case1 min ih =>
    intro s e s' h
    rw [chain] at h
    simp only [run_bind_eq_ok, run_pure_eq_ok, run_many_eq_ok] at h
    obtain ⟨first, s₁, hf, rest, s₂, hm, rfl, rfl⟩ := h
    obtain ⟨fs, hfs, hf⟩ := reads_operand he _ _ _ hf
    obtain ⟨hb, ls, hls, hl⟩ := reads_chainRest ih (blocked_maxPrecedence s₁) hm
    refine ⟨hb, fs ++ ls, ?_, fun hp => ?_⟩
    · have hm := Expr.mentions_chained first rest
      rw [Expr.chained] at hm
      rw [hm, List.map_append, List.map_flatMap]
      exact hfs.trans hls
    · rw [List.forall_mem_append] at hp
      have hr := hf hp.1
      exact Expr.renders_chained (hl hp.2)
        (hr.of_maxPrecedence_lt (Nat.lt_succ_self _) _) (hr.mono (Nat.le_succ _))

end Expressions

theorem run_tooDeep_ne_ok {a : α} : (tooDeep : Parser σ α).run s ≠ (.ok a, s') := by
  intro h
  obtain ⟨t, s₁, -, hf⟩ := run_bind_eq_ok.1 h
  exact run_fail_ne_ok hf

theorem reads_expression (n : Nat) : ReadsInner (expression n : Parser σ Expr) n := by
  induction n with
  | zero =>
    intro s e s' h
    exact absurd h run_tooDeep_ne_ok
  | succ n ih =>
    intro s e s' h
    obtain ⟨-, ls, hls, hl⟩ := reads_chain ih 0 s e s' h
    exact ⟨ls, hls, fun hp => ⟨n, rfl, (hl hp).mono (Nat.zero_le _)⟩⟩

/-! ### Statements -/

section Statements

variable {expression : Parser σ Expr} {body : Parser σ (List Statement)} {n : Nat}

theorem reaches_keyword {word : String} {u : Token} (hp : peek.run s = (.ok t, s))
    (hk : t.lexeme = .keyword word) (hn : next.run s = (.ok u, s')) :
    s.Reaches [.keyword word] [] s' := by
  obtain rfl := next_of_peek hp hn
  rw [← hk]
  refine reaches_next hn ?_
  have hk := congrArg Lexeme.kind hk
  simp only [Token.lexeme, Lexeme.keyword] at hk
  simp [Token.isEof, hk]

theorem reaches_ending {found : Bool} (h : (skip? ";").run s = (.ok found, s')) :
    ∃ es, s.Reaches es [] s' ∧ IsClosable es := by
  refine ⟨_, reaches_skip h, ?_⟩
  cases found with
  | false => exact .inl rfl
  | true => exact .inr rfl

theorem reads_importStatement {a : Statement} (hp : peek.run s = (.ok t, s))
    (hk : t.lexeme = .keyword "import") (h : importStatement.run s = (.ok a, s')) :
    ∃ ls, s.Reaches ls (a.mentions.map Mention.id) s' ∧
      ((∀ l ∈ ls, l.IsProper) → a.Renders IsClosable n ls) := by
  simp only [importStatement, run_bind_eq_ok] at h
  obtain ⟨_, s₁, hn, u, s₂, hu, h⟩ := h
  have hn := reaches_keyword hp hk hn
  split at h
  next hs =>
    split at h
    next hx =>
      simp only [run_bind_eq_ok, run_pure_eq_ok] at h
      obtain ⟨_, s₃, he, rfl, rfl⟩ := h
      have hu := reaches_next hu (by simp [Token.isEof, hs])
      rw [show u.lexeme = .string u.text by simp [Token.lexeme, Lexeme.string, hs]] at hu
      obtain ⟨es, hes, he⟩ := reaches_ending he
      refine ⟨.keyword "import" :: .string u.text :: es, ?_, fun hp => ?_⟩
      · exact hn.trans (hu.trans hes)
      · have hq : '"' ∉ u.text.toList := hp (.string u.text) (by simp)
        exact .importFile hq (List.isSuffixOf_iff_suffix.1 hx) he
    next => exact absurd h run_fail_ne_ok
  next => exact absurd h run_unexpected_ne_ok

def ReadsBody (p : Parser σ (List Statement)) (n : Nat) : Prop :=
  Reads p (fun ss => (Statement.mentionsAll ss).map Mention.id) fun ss ls =>
    ∃ m, n = m + 1 ∧ Statement.RendersAll IsClosable m ss ls

theorem reads_functionStatement {a : Statement} (hb : ReadsBody body n)
    (hp : peek.run s = (.ok t, s)) (hk : t.lexeme = .keyword "fn")
    (h : (functionStatement body).run s = (.ok a, s')) :
    ∃ ls, s.Reaches ls (a.mentions.map Mention.id) s' ∧
      ((∀ l ∈ ls, l.IsProper) → a.Renders IsClosable n ls) := by
  simp only [functionStatement, run_bind_eq_ok, run_pure_eq_ok] at h
  obtain ⟨_, s₁, hn, name, s₂, hi, _, s₃, ho, _, s₄, hc, _, s₅, hbo, ss, s₆, hss, _, s₇, hbc, rfl,
    rfl⟩ := h
  have hn := reaches_keyword hp hk hn
  have hi := reaches_identifier hi
  have ho := reaches_separator ho
  have hc := reaches_separator hc
  have hbo := reaches_separator hbo
  have hbc := reaches_separator hbc
  obtain ⟨ls, hls, hl⟩ := hb _ _ _ hss
  refine ⟨.keyword "fn" :: .identifier name :: .separator "(" :: .separator ")" ::
    .separator "\x7b" :: ls ++ [.separator "\x7d"], ?_, fun hp => ?_⟩
  · simpa [Statement.mentions] using
      hn.trans (hi.trans (ho.trans (hc.trans (hbo.trans (hls.trans hbc)))))
  · simp only [List.forall_mem_cons, List.forall_mem_append] at hp
    obtain ⟨m, rfl, hr⟩ := hl hp.1.2.2.2.2.2
    exact .function hp.1.2.1 hr

theorem reads_declaredType :
    Reads (declaredType : Parser σ String) (fun _ => []) RendersType := by
  intro s typeName s' h
  simp only [declaredType, run_bind_eq_ok] at h
  obtain ⟨typed, s₁, hc, h⟩ := h
  have hc := reaches_skip hc
  cases typed with
  | false =>
    obtain ⟨rfl, rfl⟩ := run_pure_eq_ok.1 h
    exact ⟨[], hc, fun _ => .default⟩
  | true =>
    have hi := reaches_identifier h
    exact ⟨_, hc.trans hi, fun hp => .written (hp (.identifier typeName) (by simp))⟩

theorem reads_initialValue (he : ReadsInner expression n) :
    Reads (initialValue expression)
      (fun init => (init.elim [] Expr.mentions).map Mention.id) (RendersInit n) := by
  intro s init s' h
  simp only [initialValue, run_bind_eq_ok] at h
  obtain ⟨assigned, s₁, ha, h⟩ := h
  cases assigned with
  | none =>
    obtain ⟨rfl, rfl⟩ := run_pure_eq_ok.1 h
    exact ⟨[], reaches_accept_none ha, fun _ => .none⟩
  | some _ =>
    obtain ⟨e, hr, rfl⟩ := run_map_eq_ok.1 h
    obtain ⟨t, ht, hs⟩ := reaches_accept_some ha
    obtain ⟨ls, hls, hl⟩ := he _ _ _ hr
    have hs : t.isOperator "=" = true := (Option.ite_none_right_eq_some.1 hs).1
    have hs : t.lexeme = .operator .assign := isOperator_iff.1 hs
    rw [hs] at ht
    refine ⟨.operator .assign :: ls, by simpa using ht.trans hls, fun hp => ?_⟩
    rw [List.forall_mem_cons] at hp
    obtain ⟨m, rfl, hr⟩ := hl hp.2
    exact .some hr

theorem reads_variableStatement {a : Statement} (he : ReadsInner expression n)
    (hp : peek.run s = (.ok t, s)) (hk : t.lexeme = .keyword "let")
    (h : (variableStatement expression).run s = (.ok a, s')) :
    ∃ ls, s.Reaches ls (a.mentions.map Mention.id) s' ∧
      ((∀ l ∈ ls, l.IsProper) → a.Renders IsClosable n ls) := by
  rw [variableStatement_eq] at h
  simp only [run_bind_eq_ok, run_pure_eq_ok] at h
  obtain ⟨_, s₁, hn, name, s₂, hi, typeName, s₃, ht, init, s₄, hv, _, s₅, hs, rfl, rfl⟩ := h
  have hn := reaches_keyword hp hk hn
  have hi := reaches_identifier hi
  obtain ⟨ts, hts, ht⟩ := reads_declaredType _ _ _ ht
  obtain ⟨is, his, hv⟩ := reads_initialValue he _ _ _ hv
  obtain ⟨es, hes, hs⟩ := reaches_ending hs
  refine ⟨.keyword "let" :: .identifier name :: ts ++ is ++ es, ?_, fun hp => ?_⟩
  · rw [Statement.mentions_variable]
    simpa using hn.trans (hi.trans (hts.trans (his.trans hes)))
  · simp only [List.forall_mem_cons, List.forall_mem_append] at hp
    exact .declaration hp.1.1.2.1 (ht hp.1.1.2.2) (hv hp.1.2) hs

theorem reads_expressionStatement {a : Statement} (he : ReadsInner expression n)
    (h : (expressionStatement expression).run s = (.ok a, s')) :
    ∃ ls, s.Reaches ls (a.mentions.map Mention.id) s' ∧
      ((∀ l ∈ ls, l.IsProper) → a.Renders IsClosable n ls) := by
  simp only [expressionStatement, run_bind_eq_ok, run_pure_eq_ok] at h
  obtain ⟨e, s₁, h, _, s₂, hs, rfl, rfl⟩ := h
  obtain ⟨ls, hls, hl⟩ := he _ _ _ h
  obtain ⟨es, hes, hs⟩ := reaches_ending hs
  refine ⟨ls ++ es, by simpa [Statement.mentions] using hls.trans hes, fun hp => ?_⟩
  rw [List.forall_mem_append] at hp
  obtain ⟨m, rfl, hr⟩ := hl hp.1
  exact .expression hr hs

theorem reads_statement (he : ReadsInner expression n) (hb : ReadsBody body n) :
    Reads (statement expression body) (·.mentions.map Mention.id)
      (Statement.Renders IsClosable n) := by
  intro s a s' h
  obtain ⟨t, s₁, hp, h⟩ := run_bind_eq_ok.1 h
  have hq := peek_of_peek hp
  have hk : ∀ word, t.kind = .keyword → t.text = word → t.lexeme = .keyword word := by
    rintro _ hk rfl
    simp [Token.lexeme, Lexeme.keyword, hk]
  have hr : ∃ ls, s₁.Reaches ls (a.mentions.map Mention.id) s' ∧
      ((∀ l ∈ ls, l.IsProper) → a.Renders IsClosable n ls) := by
    split at h
    next hkey =>
      split at h
      next ht => exact reads_importStatement hq (hk _ hkey ht) h
      next =>
        split at h
        next ht => exact reads_functionStatement hb hq (hk _ hkey ht) h
        next =>
          split at h
          next ht => exact reads_variableStatement he hq (hk _ hkey ht) h
          next => exact absurd h run_fail_ne_ok
    next =>
      split at h
      next => exact reads_expressionStatement he h
      next => exact absurd h run_unexpected_ne_ok
  obtain ⟨ls, hls, hl⟩ := hr
  exact ⟨ls, by simpa using (reaches_peek hp).trans hls, hl⟩

theorem reads_statementList (n : Nat) (hb : ReadsBody body n) :
    Reads (statementList n body) (fun ss => (Statement.mentionsAll ss).map Mention.id)
      (Statement.RendersAll IsClosable n) := by
  intro s ss s' h
  rw [statementList, run_manyUntil_eq_ok] at h
  induction h with
  | done hp ht => exact ⟨[], reaches_peek hp, fun _ => .nil⟩
  | @round s s₁ s₂ s' t a ss hp ht ha _ ih =>
    obtain ⟨ls, hls, hl⟩ := reads_statement (reads_expression n) hb _ _ _ ha
    obtain ⟨rs, hrs, hr⟩ := ih
    refine ⟨ls ++ rs, ?_, fun hp => ?_⟩
    · simpa [Statement.mentionsAll] using (reaches_peek hp).trans (hls.trans hrs)
    · rw [List.forall_mem_append] at hp
      exact .cons (hl hp.1) (hr hp.2)

theorem reads_statements (n : Nat) :
    Reads (statements n : Parser σ (List Statement))
      (fun ss => (Statement.mentionsAll ss).map Mention.id) (Statement.RendersAll IsClosable n) := by
  induction n with
  | zero =>
    refine reads_statementList 0 fun s ss s' h => ?_
    exact absurd h run_tooDeep_ne_ok
  | succ n ih =>
    refine reads_statementList (n + 1) fun s ss s' h => ?_
    obtain ⟨ls, hls, hl⟩ := ih s ss s' h
    exact ⟨ls, hls, fun hp => ⟨n, rfl, hl hp⟩⟩

end Statements

theorem reads_program {p : Program} (h : program.run s = (.ok p, s')) :
    ∃ ls t, s.Reaches ls ((Statement.mentionsAll p.statements).map Mention.id) s' ∧
      s'.tokens.Yields [t] ∧ t.isEof = true ∧
      ((∀ l ∈ ls, l.IsProper) → p.Renders IsClosable maxNesting ls) := by
  simp only [program, run_bind_eq_ok] at h
  obtain ⟨ss, s₁, h, t, s₂, hp, hr⟩ := h
  obtain ⟨ls, hls, hl⟩ := reads_statements maxNesting _ _ _ h
  split at hr
  next he =>
    obtain ⟨rfl, rfl⟩ := run_pure_eq_ok.1 hr
    have ht := (run_peek_eq_ok.1 (peek_of_peek hp)).1
    refine ⟨ls, t, ?_, Lookahead.yields_of_peek_eof ht he, he, hl⟩
    simpa using hls.trans (reaches_peek hp)
  next => exact absurd hr run_unexpected_ne_ok

end Parser

end FlatScript
