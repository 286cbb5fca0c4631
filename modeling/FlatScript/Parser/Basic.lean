import FlatScript.ParseError
import FlatScript.Program
import FlatScript.Token.Source

namespace FlatScript

structure ParserState (σ : Type) where
  tokens : Lookahead σ
  nextId : NodeId := 0

/-- A parser never adds to what is left to read, and so its loops end. -/
structure Parser (σ : Type) [TokenSource σ] (α : Type) where
  run : ParserState σ → Except ParseError α × ParserState σ
  size_run_le (s : ParserState σ) : (run s).2.tokens.size ≤ s.tokens.size

namespace Parser

variable {σ : Type} [TokenSource σ] {α β γ : Type}

theorem size_of_run {p : Parser σ α} {s s' : ParserState σ} {r : Except ParseError α}
    (h : p.run s = (r, s')) : s'.tokens.size ≤ s.tokens.size := by
  have hp := p.size_run_le s
  rwa [h] at hp

@[inline] protected def pure (a : α) : Parser σ α where
  run s := (.ok a, s)
  size_run_le _ := Nat.le_refl _

@[inline] protected def bind (p : Parser σ α) (f : α → Parser σ β) : Parser σ β where
  run s :=
    match p.run s with
    | (.ok a, s') => (f a).run s'
    | (.error e, s') => (.error e, s')
  size_run_le s := by
    have hp := p.size_run_le s
    split
    next a s' h =>
      rw [h] at hp
      exact Nat.le_trans ((f a).size_run_le s') hp
    next e s' h =>
      rw [h] at hp
      exact hp

instance : Monad (Parser σ) where
  pure := Parser.pure
  bind := Parser.bind

theorem run_pure (a : α) (s : ParserState σ) : (pure a : Parser σ α).run s = (.ok a, s) := rfl

theorem run_bind (p : Parser σ α) (f : α → Parser σ β) (s : ParserState σ) :
    (p >>= f).run s =
      match p.run s with
      | (.ok a, s') => (f a).run s'
      | (.error e, s') => (.error e, s') := rfl

@[inline] def fail (e : ParseError) : Parser σ α where
  run s := (.error e, s)
  size_run_le _ := Nat.le_refl _

def ofExcept : Except ParseError α → Parser σ α
  | .ok a => pure a
  | .error e => fail e

@[inline] def ofTokens (step : Lookahead σ → Except LexError Token × Lookahead σ)
    (h : ∀ l, (step l).2.size ≤ l.size) : Parser σ Token where
  run s :=
    match step s.tokens with
    | (.ok t, tokens) => (.ok t, { s with tokens })
    | (.error e, tokens) => (.error (.lex e), { s with tokens })
  size_run_le s := by
    have hs := h s.tokens
    split
    all_goals
      next _ _ hr =>
        rw [hr] at hs
        exact hs

def next : Parser σ Token := ofTokens Lookahead.next Lookahead.size_next_le

def peek : Parser σ Token := ofTokens Lookahead.peek Lookahead.size_peek_le

def peek2 : Parser σ Token := ofTokens Lookahead.peek2 Lookahead.size_peek2_le

def fresh : Parser σ NodeId where
  run s := (.ok s.nextId, { s with nextId := s.nextId + 1 })
  size_run_le _ := Nat.le_refl _

def unexpected (expected : Expectation) (t : Token) : Parser σ α :=
  fail <| if t.isEof then .unexpectedEof expected t.location
    else .unexpectedToken expected t.text t.location

def accept? (pick : Token → Option α) : Parser σ (Option α) := do
  let t ← peek
  if t.isEof then return none
  match pick t with
  | none => return none
  | some a => do
    let _ ← next
    return some a

def skip? (text : String) : Parser σ Bool := do
  let found ← accept? fun t => if t.isSeparator text then some () else none
  return found.isSome

theorem size_accept_lt {pick : Token → Option α} {s s' : ParserState σ} {a : α}
    (h : (accept? pick).run s = (.ok (some a), s')) : s'.tokens.size < s.tokens.size := by
  have hs := Lookahead.size_peek_le s.tokens
  simp only [accept?, run_bind] at h
  split at h
  next t s₁ hpeek =>
    simp only [peek, ofTokens] at hpeek
    split at hpeek
    next u tokens hp =>
      obtain ⟨rfl, rfl⟩ : u = t ∧ _ = s₁ := by simpa using hpeek
      rw [hp] at hs
      split at h
      · simp [run_pure] at h
      next he =>
        split at h
        · simp [run_pure] at h
        · have hn := Lookahead.next_of_peek hp
          have hlt := Lookahead.size_next_lt (by rw [hn]) ((Bool.not_eq_true _).mp he)
          rw [hn] at hlt
          simp only [run_bind, next, ofTokens, hn, run_pure] at h
          obtain ⟨-, rfl⟩ : _ ∧ _ = s' := by simpa using h
          exact Nat.lt_of_lt_of_le hlt hs
    next => simp at hpeek
  next => simp at h

def runMany (pick : Token → Option γ) (p : γ → Parser σ α) (s : ParserState σ) :
    Except ParseError (List α) × ParserState σ :=
  match ha : (accept? pick).run s with
  | (.error e, s₁) => (.error e, s₁)
  | (.ok none, s₁) => (.ok [], s₁)
  | (.ok (some c), s₁) =>
    match hp : (p c).run s₁ with
    | (.error e, s₂) => (.error e, s₂)
    | (.ok a, s₂) =>
      have : s₂.tokens.size < s.tokens.size := by
        have h := (p c).size_run_le s₁
        rw [hp] at h
        exact Nat.lt_of_le_of_lt h (size_accept_lt ha)
      match runMany pick p s₂ with
      | (.error e, s₃) => (.error e, s₃)
      | (.ok as, s₃) => (.ok (a :: as), s₃)
termination_by s.tokens.size
decreasing_by exact this

theorem size_runMany_le (pick : Token → Option γ) (p : γ → Parser σ α) (s : ParserState σ) :
    (runMany pick p s).2.tokens.size ≤ s.tokens.size := by
  fun_induction runMany pick p s with
  | case1 s e s₁ ha => exact size_of_run ha
  | case2 s s₁ ha => exact size_of_run ha
  | case3 s c s₁ ha e s₂ hp => exact Nat.le_trans (size_of_run hp) (size_of_run ha)
  | case4 s c s₁ ha a s₂ hp _ e s₃ hm ih =>
    rw [hm] at ih
    exact Nat.le_trans ih (Nat.le_trans (size_of_run hp) (size_of_run ha))
  | case5 s c s₁ ha a s₂ hp _ as s₃ hm ih =>
    rw [hm] at ih
    exact Nat.le_trans ih (Nat.le_trans (size_of_run hp) (size_of_run ha))

/-- As long as the next token is picked: takes it, and runs `p` on what was made of it. -/
def many (pick : Token → Option γ) (p : γ → Parser σ α) : Parser σ (List α) where
  run := runMany pick p
  size_run_le := size_runMany_le pick p

def Consumes (p : Parser σ α) : Prop :=
  ∀ s a, (p.run s).1 = .ok a → (p.run s).2.tokens.size < s.tokens.size

theorem consumes_fail (e : ParseError) : (fail e : Parser σ α).Consumes := by
  intro s a h
  simp [fail] at h

theorem Consumes.bind_left {p : Parser σ α} (hp : p.Consumes) (f : α → Parser σ β) :
    (p >>= f).Consumes := by
  intro s b hb
  have hs := hp s
  rw [run_bind] at hb ⊢
  split at hb
  next a s' h =>
    rw [h] at hs
    exact Nat.lt_of_le_of_lt ((f a).size_run_le s') (hs a rfl)
  next => simp at hb

theorem Consumes.bind_right (p : Parser σ α) {f : α → Parser σ β} (hf : ∀ a, (f a).Consumes) :
    (p >>= f).Consumes := by
  intro s b hb
  have hs := p.size_run_le s
  rw [run_bind] at hb ⊢
  split at hb
  next a s' h =>
    rw [h] at hs
    exact Nat.lt_of_lt_of_le (hf a s' b hb) hs
  next => simp at hb

theorem consumes_next_bind {f : Token → Parser σ β}
    (h : ∀ t, t.isEof = true → (f t).Consumes) : (next >>= f).Consumes := by
  intro s b hb
  have hs := next.size_run_le s
  rw [run_bind] at hb ⊢
  split at hb
  next t s' ht =>
    rw [ht] at hs
    cases he : t.isEof with
    | true => exact Nat.lt_of_lt_of_le (h t he s' b hb) hs
    | false =>
      simp only [next, ofTokens] at ht
      split at ht
      next u tokens hn =>
        obtain ⟨rfl, rfl⟩ : u = t ∧ _ = s' := by simpa using ht
        have hlt := Lookahead.size_next_lt (by rw [hn]) he
        rw [hn] at hlt
        exact Nat.lt_of_le_of_lt ((f u).size_run_le _) hlt
      next => simp at ht
  next => simp at hb

theorem consumes_accept_bind {pick : Token → Option α} {f : Option α → Parser σ β}
    (h : (f none).Consumes) : (accept? pick >>= f).Consumes := by
  intro s b hb
  rw [run_bind] at hb ⊢
  split at hb
  next a s' ha =>
    cases a with
    | none => exact Nat.lt_of_lt_of_le (h s' b hb) (size_of_run ha)
    | some a => exact Nat.lt_of_le_of_lt ((f (some a)).size_run_le s') (size_accept_lt ha)
  next => simp at hb

theorem consumes_unexpected (expected : Expectation) (t : Token) :
    (unexpected expected t : Parser σ α).Consumes := consumes_fail _

theorem Consumes.ite {c : Prop} [Decidable c] {p q : Parser σ α} (hp : p.Consumes)
    (hq : q.Consumes) : (if c then p else q).Consumes := by
  split
  · exact hp
  · exact hq

def runManyUntil (stop : Token → Bool) (p : Parser σ α) (consumes : p.Consumes)
    (s : ParserState σ) : Except ParseError (List α) × ParserState σ :=
  match ht : peek.run s with
  | (.error e, s₁) => (.error e, s₁)
  | (.ok t, s₁) =>
    if stop t then (.ok [], s₁)
    else
      match hp : p.run s₁ with
      | (.error e, s₂) => (.error e, s₂)
      | (.ok a, s₂) =>
        have : s₂.tokens.size < s.tokens.size := by
          have h₁ := peek.size_run_le s
          have h₂ := consumes s₁ a (by rw [hp])
          rw [ht] at h₁
          rw [hp] at h₂
          exact Nat.lt_of_lt_of_le h₂ h₁
        match runManyUntil stop p consumes s₂ with
        | (.error e, s₃) => (.error e, s₃)
        | (.ok as, s₃) => (.ok (a :: as), s₃)
termination_by s.tokens.size
decreasing_by exact this

theorem size_runManyUntil_le (stop : Token → Bool) (p : Parser σ α) (consumes : p.Consumes)
    (s : ParserState σ) : (runManyUntil stop p consumes s).2.tokens.size ≤ s.tokens.size := by
  fun_induction runManyUntil stop p consumes s with
  | case1 s e s₁ ht => exact size_of_run ht
  | case2 s t s₁ ht => exact size_of_run ht
  | case3 s t s₁ ht _ e s₂ hp => exact Nat.le_trans (size_of_run hp) (size_of_run ht)
  | case4 s t s₁ ht _ a s₂ hp _ e s₃ hm ih =>
    rw [hm] at ih
    exact Nat.le_trans ih (Nat.le_trans (size_of_run hp) (size_of_run ht))
  | case5 s t s₁ ht _ a s₂ hp _ as s₃ hm ih =>
    rw [hm] at ih
    exact Nat.le_trans ih (Nat.le_trans (size_of_run hp) (size_of_run ht))

/-- Runs `p` until the next token stops it; that token stays. -/
def manyUntil (stop : Token → Bool) (p : Parser σ α) (consumes : p.Consumes) :
    Parser σ (List α) where
  run := runManyUntil stop p consumes
  size_run_le := size_runManyUntil_le stop p consumes

end Parser

end FlatScript
