import FlatScript.Proofs.Composition

namespace FlatScript

variable {σ : Type} [TokenSource σ] {α β : Type}

/-- Steps of a parser lead from one state to the other. -/
inductive ParserState.Moves (s : ParserState σ) : ParserState σ → Prop
  | refl : s.Moves s
  | next {s' : ParserState σ} (h : s.Moves s') : s.Moves (Parser.next.run s').2
  | peek {s' : ParserState σ} (h : s.Moves s') : s.Moves (Parser.peek.run s').2
  | peek2 {s' : ParserState σ} (h : s.Moves s') : s.Moves (Parser.peek2.run s').2
  | fresh {s' : ParserState σ} (h : s.Moves s') : s.Moves (Parser.fresh.run s').2

theorem ParserState.Moves.trans {s s' s'' : ParserState σ} (h : s.Moves s') (h' : s'.Moves s'') :
    s.Moves s'' := by
  induction h' with
  | refl => exact h
  | next _ ih => exact .next ih
  | peek _ ih => exact .peek ih
  | peek2 _ ih => exact .peek2 ih
  | fresh _ ih => exact .fresh ih

namespace Parser

theorem nextId_ofTokens (step : Lookahead σ → Except LexError Token × Lookahead σ)
    (h : ∀ l, (step l).2.size ≤ l.size) (s : ParserState σ) :
    ((ofTokens step h).run s).2.nextId = s.nextId := by
  simp only [ofTokens]
  split
  · rfl
  · rfl

theorem nextId_le_of_moves {s s' : ParserState σ} (h : s.Moves s') : s.nextId ≤ s'.nextId := by
  induction h with
  | refl => exact Nat.le_refl _
  | next _ ih | peek _ ih | peek2 _ ih =>
    refine Nat.le_trans ih (Nat.le_of_eq ?_)
    exact (nextId_ofTokens _ _ _).symm
  | fresh _ ih => exact Nat.le_succ_of_le ih

theorem moves_bind {s : ParserState σ} {p : Parser σ α} {f : α → Parser σ β}
    (hp : s.Moves (p.run s).2)
    (hf : ∀ a s', p.run s = (.ok a, s') → s'.Moves ((f a).run s').2) :
    s.Moves ((p >>= f).run s).2 := by
  rw [run_bind]
  split
  next a s' hr =>
    rw [hr] at hp
    exact hp.trans (hf a s' hr)
  next e s' hr =>
    rw [hr] at hp
    exact hp

theorem composes_moves :
    Composes fun {_} (s : ParserState σ) p => s.Moves (p.run s).2 where
  pure _ _ := .refl
  bind := moves_bind
  next _ := .next .refl
  peek _ := .peek .refl
  peek2 _ := .peek2 .refl
  fresh _ := .fresh .refl
  fail _ _ _ _ := .refl
  literal {s t r} _ _ := by
    refine moves_bind (.next .refl) fun u s₁ _ => ?_
    cases r with
    | ok e => exact .refl
    | error e => exact .refl

/-- Every run of the parser consists of steps. -/
def Stepwise (p : Parser σ α) : Prop := ∀ s : ParserState σ, s.Moves (p.run s).2

theorem Stepwise.map {p : Parser σ α} (hp : p.Stepwise) (f : α → β) : (f <$> p).Stepwise :=
  fun s => composes_moves.map (hp s) f

theorem stepwise_expression (levels : Nat) : (expression levels : Parser σ Expr).Stepwise :=
  composes_moves.expression levels

theorem stepwise_program : (program : Parser σ Program).Stepwise := composes_moves.program

end Parser

end FlatScript
