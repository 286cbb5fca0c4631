import FlatScript.Parser.Grammar
import FlatScript.Proofs.Lexeme

namespace FlatScript.Parser

variable {σ : Type} [TokenSource σ] {α β γ : Type} {s s' s'' : ParserState σ}

theorem eq_of_run {p q : Parser σ α} (h : ∀ s, p.run s = q.run s) : p = q := by
  obtain ⟨p, hp⟩ := p
  obtain ⟨q, hq⟩ := q
  obtain rfl : p = q := funext h
  rfl

theorem bind_assoc (p : Parser σ α) (f : α → Parser σ β) (g : β → Parser σ γ) :
    p >>= f >>= g = p >>= fun a => f a >>= g := by
  refine eq_of_run fun s => ?_
  simp only [run_bind]
  rcases p.run s with ⟨e | a, s'⟩
  · rfl
  · rfl

theorem ite_bind (c : Prop) [Decidable c] (p q : Parser σ α) (f : α → Parser σ β) :
    (if c then p else q) >>= f = if c then p >>= f else q >>= f := by
  split
  · rfl
  · rfl

theorem run_bind_eq_ok {p : Parser σ α} {f : α → Parser σ β} {b : β} :
    (p >>= f).run s = (.ok b, s'') ↔
      ∃ a s', p.run s = (.ok a, s') ∧ (f a).run s' = (.ok b, s'') := by
  rw [run_bind]
  constructor
  · intro h
    split at h
    next a s' hp => exact ⟨a, s', hp, h⟩
    next => simp at h
  · rintro ⟨a, s', hp, hf⟩
    rw [hp]
    exact hf

theorem run_pure_eq_ok {a b : α} : (pure a : Parser σ α).run s = (.ok b, s') ↔ a = b ∧ s = s' := by
  simp [run_pure]

theorem run_fail_ne_ok {e : ParseError} {a : α} :
    (fail e : Parser σ α).run s ≠ (.ok a, s') := by
  simp [fail]

theorem run_unexpected_ne_ok {expected : Expectation} {t : Token} {a : α} :
    (unexpected expected t : Parser σ α).run s ≠ (.ok a, s') :=
  run_fail_ne_ok

theorem run_ofExcept_eq_ok {r : Except ParseError α} {a : α} :
    (ofExcept r : Parser σ α).run s = (.ok a, s') ↔ r = .ok a ∧ s = s' := by
  cases r with
  | ok b => simp [ofExcept, run_pure]
  | error e => simp [ofExcept, fail]

theorem run_map_eq_ok {p : Parser σ α} {f : α → β} {b : β} :
    (f <$> p).run s = (.ok b, s') ↔ ∃ a, p.run s = (.ok a, s') ∧ f a = b := by
  change (p >>= fun a => pure (f a)).run s = _ ↔ _
  simp only [run_bind_eq_ok, run_pure_eq_ok]
  constructor
  · rintro ⟨a, s₁, hp, hf, rfl⟩
    exact ⟨a, hp, hf⟩
  · rintro ⟨a, hp, hf⟩
    exact ⟨a, s', hp, hf, rfl⟩

theorem run_ofTokens_eq_ok {step : Lookahead σ → Except LexError Token × Lookahead σ}
    {hs : ∀ l, (step l).2.size ≤ l.size} {t : Token} :
    (ofTokens step hs).run s = (.ok t, s') ↔
      step s.tokens = (.ok t, s'.tokens) ∧ s'.nextId = s.nextId := by
  obtain ⟨tokens, nextId⟩ := s
  obtain ⟨tokens', nextId'⟩ := s'
  simp only [ofTokens]
  rcases step tokens with ⟨e | u, l⟩
  · simp
  · simp [eq_comm, and_assoc]

theorem run_next_eq_ok {t : Token} :
    next.run s = (.ok t, s') ↔ s.tokens.next = (.ok t, s'.tokens) ∧ s'.nextId = s.nextId :=
  run_ofTokens_eq_ok

theorem run_peek_eq_ok {t : Token} :
    peek.run s = (.ok t, s') ↔ s.tokens.peek = (.ok t, s'.tokens) ∧ s'.nextId = s.nextId :=
  run_ofTokens_eq_ok

theorem run_peek2_eq_ok {t : Token} :
    peek2.run s = (.ok t, s') ↔ s.tokens.peek2 = (.ok t, s'.tokens) ∧ s'.nextId = s.nextId :=
  run_ofTokens_eq_ok

theorem run_fresh_eq_ok {id : NodeId} :
    fresh.run s = (.ok id, s') ↔
      s.nextId = id ∧ s'.tokens = s.tokens ∧ s'.nextId = s.nextId + 1 := by
  obtain ⟨tokens', nextId'⟩ := s'
  simp [fresh, eq_comm]

theorem next_of_peek {t u : Token} (h : peek.run s = (.ok t, s'))
    (hn : next.run s' = (.ok u, s'')) : t = u := by
  have hq := Lookahead.next_of_peek (run_peek_eq_ok.1 h).1
  have hu := (run_next_eq_ok.1 hn).1
  simpa [hq] using congrArg Prod.fst hu

theorem peek_of_peek {t : Token} (h : peek.run s = (.ok t, s')) : peek.run s' = (.ok t, s') := by
  obtain ⟨us, hp⟩ := Lookahead.pending_of_peek (run_peek_eq_ok.1 h).1
  refine run_peek_eq_ok.2 ⟨?_, rfl⟩
  simp [Lookahead.peek, hp]

theorem run_accept_eq_none {pick : Token → Option α} :
    (accept? pick).run s = (.ok none, s') ↔
      ∃ t, peek.run s = (.ok t, s') ∧ (t.isEof = true ∨ pick t = none) := by
  simp only [accept?, run_bind_eq_ok]
  constructor
  · rintro ⟨t, s₁, hp, h⟩
    split at h
    next he =>
      obtain ⟨-, rfl⟩ := run_pure_eq_ok.1 h
      exact ⟨t, hp, .inl he⟩
    next =>
      split at h
      next hn =>
        obtain ⟨-, rfl⟩ := run_pure_eq_ok.1 h
        exact ⟨t, hp, .inr hn⟩
      next => simp [run_bind_eq_ok, run_pure_eq_ok] at h
  · rintro ⟨t, hp, h⟩
    refine ⟨t, s', hp, ?_⟩
    split
    next => rfl
    next he =>
      have hn := h.resolve_left he
      rw [hn]
      rfl

theorem run_accept_eq_some {pick : Token → Option α} {a : α} :
    (accept? pick).run s = (.ok (some a), s'') ↔
      ∃ t s', peek.run s = (.ok t, s') ∧ t.isEof = false ∧ pick t = some a ∧
        next.run s' = (.ok t, s'') := by
  simp only [accept?, run_bind_eq_ok]
  constructor
  · rintro ⟨t, s₁, hp, h⟩
    split at h
    next => simp [run_pure_eq_ok] at h
    next he =>
      split at h
      next => simp [run_pure_eq_ok] at h
      next b hb =>
        simp only [run_bind_eq_ok, run_pure_eq_ok] at h
        obtain ⟨u, s₂, hn, hab, rfl⟩ := h
        obtain rfl := Option.some.inj hab
        obtain rfl := next_of_peek hp hn
        exact ⟨t, s₁, hp, by simpa using he, hb, hn⟩
  · rintro ⟨t, s', hp, he, hb, hn⟩
    refine ⟨t, s', hp, ?_⟩
    simp only [he, Bool.false_eq_true, if_false, hb, run_bind_eq_ok, run_pure_eq_ok]
    exact ⟨t, s'', hn, trivial, rfl⟩

/-- The rounds of `many`: a token is picked in each, and none at the end. -/
inductive ManyRuns (pick : Token → Option γ) (p : γ → Parser σ α) :
    ParserState σ → List α → ParserState σ → Prop
  | done {s s' : ParserState σ} (h : (accept? pick).run s = (.ok none, s')) :
      ManyRuns pick p s [] s'
  | round {s s₁ s₂ s' : ParserState σ} {c : γ} {a : α} {as : List α}
      (h : (accept? pick).run s = (.ok (some c), s₁)) (hp : (p c).run s₁ = (.ok a, s₂))
      (hs : ManyRuns pick p s₂ as s') : ManyRuns pick p s (a :: as) s'

theorem run_many_eq_ok {pick : Token → Option γ} {p : γ → Parser σ α} {as : List α} :
    (many pick p).run s = (.ok as, s') ↔ ManyRuns pick p s as s' := by
  change runMany pick p s = _ ↔ _
  constructor
  · intro h
    fun_induction runMany pick p s generalizing as with
    | case1 => simp at h
    | case2 s s₁ ha =>
      obtain ⟨rfl, rfl⟩ : [] = as ∧ s₁ = s' := by simpa using h
      exact .done ha
    | case3 => simp at h
    | case4 => simp at h
    | case5 s c s₁ ha a s₂ hp _ bs s₃ hm ih =>
      obtain ⟨rfl, rfl⟩ : a :: bs = as ∧ s₃ = s' := by simpa using h
      exact .round ha hp (ih hm)
  · intro h
    induction h with
    | done h =>
      rw [runMany]
      split
      all_goals simp_all
    | @round s s₁ s₂ s' c a as h hp hs ih =>
      rw [runMany]
      split
      next hr => simp [h] at hr
      next hr => simp [h] at hr
      next hr =>
        obtain ⟨rfl, rfl⟩ : c = _ ∧ s₁ = _ := by simpa [h] using hr
        split
        next hr => simp [hp] at hr
        next hr =>
          obtain ⟨rfl, rfl⟩ : a = _ ∧ s₂ = _ := by simpa [hp] using hr
          rw [ih]

/-- The rounds of `manyUntil`: a token stops the loop at the end, and none before. -/
inductive ManyUntilRuns (stop : Token → Bool) (p : Parser σ α) :
    ParserState σ → List α → ParserState σ → Prop
  | done {s s' : ParserState σ} {t : Token} (h : peek.run s = (.ok t, s')) (ht : stop t = true) :
      ManyUntilRuns stop p s [] s'
  | round {s s₁ s₂ s' : ParserState σ} {t : Token} {a : α} {as : List α}
      (h : peek.run s = (.ok t, s₁)) (ht : stop t = false) (hp : p.run s₁ = (.ok a, s₂))
      (hs : ManyUntilRuns stop p s₂ as s') : ManyUntilRuns stop p s (a :: as) s'

theorem run_manyUntil_eq_ok {stop : Token → Bool} {p : Parser σ α} {hc : p.Consumes}
    {as : List α} :
    (manyUntil stop p hc).run s = (.ok as, s') ↔ ManyUntilRuns stop p s as s' := by
  change runManyUntil stop p hc s = _ ↔ _
  constructor
  · intro h
    fun_induction runManyUntil stop p hc s generalizing as with
    | case1 => simp at h
    | case2 s t s₁ hp ht =>
      obtain ⟨rfl, rfl⟩ : [] = as ∧ s₁ = s' := by simpa using h
      exact .done hp ht
    | case3 => simp at h
    | case4 => simp at h
    | case5 s t s₁ hp ht a s₂ ha _ bs s₃ hm ih =>
      obtain ⟨rfl, rfl⟩ : a :: bs = as ∧ s₃ = s' := by simpa using h
      exact .round hp (by simpa using ht) ha (ih hm)
  · intro h
    induction h with
    | @done s s' t h ht =>
      rw [runManyUntil]
      split
      next hr => simp [h] at hr
      next hr =>
        obtain ⟨rfl, rfl⟩ : t = _ ∧ s' = _ := by simpa [h] using hr
        rw [if_pos ht]
    | @round s s₁ s₂ s' t a as h ht hp hs ih =>
      rw [runManyUntil]
      split
      next hr => simp [h] at hr
      next hr =>
        obtain ⟨rfl, rfl⟩ : t = _ ∧ s₁ = _ := by simpa [h] using hr
        rw [if_neg (by simp [ht])]
        split
        next hr => simp [hp] at hr
        next hr =>
          obtain ⟨rfl, rfl⟩ : a = _ ∧ s₂ = _ := by simpa [hp] using hr
          rw [ih]

theorem isSeparator_iff {t : Token} {text : String} :
    t.isSeparator text = true ↔ t.lexeme = .separator text := by
  simp [Token.isSeparator, Token.lexeme, Lexeme.separator]

theorem isOperator_iff {t : Token} {op : Operator} :
    t.isOperator op.symbol = true ↔ t.lexeme = .operator op := by
  simp [Token.isOperator, Token.lexeme, Lexeme.operator]

theorem tighter_eq_some {t : Token} {min : Nat} {op : { op : Operator // min < op.precedence }} :
    tighter? min t = some op ↔ t.lexeme = .operator op := by
  obtain ⟨op, hop⟩ := op
  simp only [tighter?, Token.lexeme, Lexeme.operator, Lexeme.mk.injEq]
  constructor
  · intro h
    split at h
    next hk =>
      split at h
      next o ho =>
        split at h
        next =>
          obtain rfl : o = op := by simpa using h
          exact ⟨hk, (Operator.symbol_of_ofSymbol ho).symm⟩
        next => simp at h
      next => simp at h
    next => simp at h
  · rintro ⟨hk, ht⟩
    simp [hk, ht, Operator.ofSymbol_symbol, hop]

def declaredType : Parser σ String := do
  if ← skip? "::" then identifier .typeName else pure defaultTypeName

def initialValue (expression : Parser σ Expr) : Parser σ (Option Expr) := do
  let assigned ← accept? fun t => if t.isOperator "=" then some () else none
  if assigned.isSome then some <$> expression else pure none

theorem variableStatement_eq (expression : Parser σ Expr) :
    variableStatement expression = do
      let _ ← next
      let name ← identifier .variableName
      let typeName ← declaredType
      let init ← initialValue expression
      let _ ← skip? ";"
      return .variable name typeName init := by
  simp only [variableStatement, declaredType, initialValue, bind_assoc, ite_bind]

end FlatScript.Parser
