import FlatScript.Proofs.Following
import FlatScript.Proofs.Session

namespace FlatScript.Parser

variable {σ τ : Type} [TokenSource σ] [TokenSource τ] {α β : Type}

def listing (expression : Parser σ Expr) (h : expression.Consumes)
    (body : Parser σ (List Statement)) : Parser σ (List Statement) :=
  manyUntil (fun t => t.isEof || t.isSeparator "\x7d") (statement expression body)
    (statement_consumes h body)

theorem Pairing.Follows.listing {P : Pairing σ τ} {n : Nat} {p : Parser σ Expr} {q : Parser τ Expr}
    {b : Parser σ (List Statement)} {c : Parser τ (List Statement)} (hp : p.Consumes)
    (hq : q.Consumes) (h : P.Follows (n + 1) p q) (hb : P.Follows n b c) :
    P.Follows (n + 1) (listing p hp b) (listing q hq c) :=
  .manyUntil (follows_statement h hb) _ _

def toEnd (list : Parser σ (List Statement)) : Parser σ Program := do
  let statements ← list
  let t ← peek
  if t.isEof then return ⟨statements⟩
  unexpected .statement t

def answering (expression : Parser σ Expr) (h : expression.Consumes)
    (body : Parser σ (List Statement)) : Demand → Parser σ Tree
  | .program => .program <$> toEnd (listing expression h body)
  | .expression => .expression <$> expression

theorem Pairing.Follows.answering {P : Pairing σ τ} {p : Parser σ Expr} {q : Parser τ Expr}
    {b : Parser σ (List Statement)} {c : Parser τ (List Statement)} (hp : p.Consumes)
    (hq : q.Consumes) (h : ∀ n, P.Follows n p q) (hb : ∀ n, P.Follows n b c) (d : Demand) (n : Nat) :
    P.Follows n (answering p hp b d) (answering q hq c d) := by
  cases d with
  | program =>
    have hl := (Pairing.Follows.listing hp hq (h (n + 1)) (hb n)).mono (Nat.le_succ n)
    refine Parser.Follows.map (hl.bind fun _ => (P.peek n).bind fun t => ?_) _
    exact .ite (follows_pure n _) (follows_unexpected n _ _)
  | expression => exact (h n).map _

/-- Of parsers that go the deeper the larger their number is, the one whose number no text can
exceed. -/
def unbounded (p : Nat → Parser σ α) : Parser σ α where
  run s := (p (s.tokens.size + 1)).run s
  size_run_le s := (p _).size_run_le s

theorem consumes_unbounded {p : Nat → Parser σ α} (h : ∀ n, (p n).Consumes) :
    (unbounded p).Consumes := fun s => h _ s

theorem Pairing.Follows.unbounded {P : Pairing σ τ} {p : Nat → Parser σ α} {q : Nat → Parser τ α}
    (hsize : ∀ s t, P.rel s t → s.tokens.size = t.tokens.size)
    (h : ∀ n, P.Follows n (p n) (q n)) (n : Nat) : P.Follows n (unbounded p) (unbounded q) where
  run s t hst _ := by
    have ht := (h (s.tokens.size + 1)).run s t hst (Nat.lt_succ_self _)
    change Meets _ _ ((p (s.tokens.size + 1)).run s) ((q (t.tokens.size + 1)).run t)
    rwa [← hsize s t hst]
  keeps e t ht := (h _).keeps e t ht

def Pairing.same : Pairing σ σ where
  rel := Eq
  off _ _ := False
  next _ := ⟨fun _ _ h _ => h ▸ .same rfl rfl, fun _ _ h => h⟩
  peek _ := ⟨fun _ _ h _ => h ▸ .same rfl rfl, fun _ _ h => h⟩
  peek2 _ := ⟨fun _ _ h _ => h ▸ .same rfl rfl, fun _ _ h => h⟩
  fresh _ := ⟨fun _ _ h _ => h ▸ .same rfl rfl, fun _ _ h => h⟩

theorem follows_same_iff {n : Nat} {p q : Parser σ α} :
    Pairing.same.Follows n p q ↔ ∀ s, s.tokens.size < n → p.run s = q.run s := by
  constructor
  · intro h s hs
    cases h.run s s rfl hs with
    | same hr h => exact Prod.ext hr h
    | cut _ h => exact h.elim
  · intro h
    refine ⟨?_, fun _ _ h => h⟩
    rintro s _ rfl hs
    rw [h s hs]
    exact .same rfl rfl

theorem unbounded_of_stable {p : Nat → Parser σ α}
    (h : ∀ n m m', n ≤ m → n ≤ m' → Pairing.same.Follows n (p m) (p m')) (n : Nat) :
    Pairing.same.Follows n (p n) (unbounded p) :=
  follows_same_iff.2 fun s hs => follows_same_iff.1 (h (s.tokens.size + 1) n _ hs (Nat.le_refl _)) s
    (Nat.lt_succ_self _)

/-- What happens where a level begins, and where it ends, also in an error. -/
structure Bracket (σ : Type) [TokenSource σ] where
  opening : Parser σ Unit
  closing : ParserState σ → ParserState σ
  size_closing_le (s : ParserState σ) : (closing s).tokens.size ≤ s.tokens.size

namespace Bracket

def plain : Bracket σ where
  opening := pure ()
  closing := id
  size_closing_le _ := Nat.le_refl _

section

variable (b : Bracket σ)

def closed (p : Parser σ α) : Parser σ α where
  run s := ((p.run s).1, b.closing (p.run s).2)
  size_run_le s := Nat.le_trans (b.size_closing_le _) (p.size_run_le s)

def around (p : Parser σ α) : Parser σ α := do
  b.opening
  b.closed p

/-- Reads an expression whose level is the first of `n` that may be opened. -/
def expressionWithin : Nat → Parser σ Expr
  | 0 => tooDeep
  | n + 1 => b.around (chain (expressionWithin n) 0)

end

variable {b : Bracket σ} {c : Bracket τ}

theorem around_plain (p : Parser σ α) : plain.around p = p := eq_of_run fun _ => rfl

theorem consumes_around {p : Parser σ α} (h : p.Consumes) : (b.around p).Consumes :=
  .bind_right _ fun _ s a ha => Nat.lt_of_le_of_lt (b.size_closing_le _) (h s a ha)

theorem consumes_expressionWithin (b : Bracket σ) (n : Nat) : (b.expressionWithin n).Consumes := by
  cases n with
  | zero => exact tooDeep_consumes
  | succ n => exact consumes_around (chain_consumes _ _)

section

variable (b)

def bodyWithin : Nat → Parser σ (List Statement)
  | 0 => tooDeep
  | n + 1 =>
    b.around (listing (b.expressionWithin (n + 1)) (b.consumes_expressionWithin _) (bodyWithin n))

/-- Reads an expression on a level of its own; there is no limit to the levels in it. -/
def expression : Parser σ Expr := unbounded b.expressionWithin

def body : Parser σ (List Statement) := unbounded b.bodyWithin

theorem consumes_expression : b.expression.Consumes :=
  consumes_unbounded b.consumes_expressionWithin

def parser : Demand → Parser σ Tree := answering b.expression b.consumes_expression b.body

end

/-- The levels of both parsers are opened and closed side by side; what stands inside of them is
read in the correspondence `Q`, and what stands around them in `P`. -/
structure Opens (P Q : Pairing σ τ) (b : Bracket σ) (c : Bracket τ) : Prop where
  opening : ∀ s t, P.rel s t →
    (∃ s' t', b.opening.run s = (.ok (), s') ∧ c.opening.run t = (.ok (), t') ∧ Q.rel s' t') ∨
    ∃ e s' t', b.opening.run s = (.error e, s') ∧ c.opening.run t = (.error e, t') ∧ P.rel s' t'
  closing : ∀ s t, Q.rel s t → P.rel (b.closing s) (c.closing t)
  keeps_opening : ∀ e t, P.off e t → ∃ t', c.opening.run t = (.ok (), t') ∧ Q.off e t'
  keeps_closing : ∀ e t, Q.off e t → P.off e (c.closing t)

variable {P Q : Pairing σ τ} {n : Nat}

theorem Opens.keeps_around {p : Parser τ α} (ho : Opens P Q b c)
    (h : ∀ e t, Q.off e t → Q.off e (p.run t).2) (e : ParseError) (t : ParserState τ)
    (ht : P.off e t) : P.off e ((c.around p).run t).2 := by
  obtain ⟨t', hr, ht'⟩ := ho.keeps_opening e t ht
  rw [around, run_bind, hr]
  exact ho.keeps_closing e _ (h e t' ht')

theorem Opens.around {p : Parser σ α} {q : Parser τ α} (ho : Opens P Q b c)
    (h : Q.Follows n p q) : P.Follows n (b.around p) (c.around q) := by
  refine ⟨fun s t hst hs => ?_, ho.keeps_around h.keeps⟩
  rw [Bracket.around, Bracket.around, run_bind, run_bind]
  rcases ho.opening s t hst with ⟨s', t', hb, hc, hst'⟩ | ⟨e, s', t', hb, hc, hst'⟩
  · rw [hb, hc]
    cases h.run s' t' hst' (Nat.lt_of_le_of_lt (size_of_run hb) hs) with
    | same hr hrel => exact .same hr (ho.closing _ _ hrel)
    | cut he hoff => exact .cut he (ho.keeps_closing _ _ hoff)
  · rw [hb, hc]
    exact .same rfl hst'

theorem opens_same (b : Bracket σ) : Opens .same .same b b where
  opening := by
    rintro s _ rfl
    rcases hr : b.opening.run s with ⟨e | ⟨⟩, s'⟩
    · exact .inr ⟨e, s', s', rfl, rfl, rfl⟩
    · exact .inl ⟨s', s', rfl, rfl, rfl⟩
  closing := fun _ _ h => congrArg b.closing h
  keeps_opening := fun _ _ h => h.elim
  keeps_closing := fun _ _ h => h

theorem follows_expressionWithin {m m' : Nat} (hm : n ≤ m) (hm' : n ≤ m') :
    Pairing.same.Follows n (b.expressionWithin m) (b.expressionWithin m') := by
  induction n generalizing m m' with
  | zero => exact follows_same_iff.2 fun _ hs => absurd hs (Nat.not_lt_zero _)
  | succ n ih =>
    obtain ⟨m, rfl⟩ : ∃ k, m = k + 1 := Nat.exists_eq_add_one_of_ne_zero (by omega)
    obtain ⟨m', rfl⟩ : ∃ k, m' = k + 1 := Nat.exists_eq_add_one_of_ne_zero (by omega)
    have h := ih (Nat.le_of_succ_le_succ hm) (Nat.le_of_succ_le_succ hm')
    exact (opens_same b).around (follows_chain h 0)

theorem follows_expression (b : Bracket σ) (n : Nat) :
    Pairing.same.Follows n (b.expressionWithin n) b.expression :=
  unbounded_of_stable (fun _ _ _ => follows_expressionWithin) n

theorem follows_bodyWithin {m m' : Nat} (hm : n ≤ m) (hm' : n ≤ m') :
    Pairing.same.Follows n (b.bodyWithin m) (b.bodyWithin m') := by
  induction n generalizing m m' with
  | zero => exact follows_same_iff.2 fun _ hs => absurd hs (Nat.not_lt_zero _)
  | succ n ih =>
    obtain ⟨m, rfl⟩ : ∃ k, m = k + 1 := Nat.exists_eq_add_one_of_ne_zero (by omega)
    obtain ⟨m', rfl⟩ : ∃ k, m' = k + 1 := Nat.exists_eq_add_one_of_ne_zero (by omega)
    have h := ih (Nat.le_of_succ_le_succ hm) (Nat.le_of_succ_le_succ hm')
    exact (opens_same b).around (.listing _ _ (follows_expressionWithin hm hm') h)

theorem follows_body (b : Bracket σ) (n : Nat) :
    Pairing.same.Follows n (b.bodyWithin n) b.body :=
  unbounded_of_stable (fun _ _ _ => follows_bodyWithin) n

/-- An expression on its level is a chain of operands, in which expressions are read by the same
parser. -/
theorem expression_eq (b : Bracket σ) : b.expression = b.around (chain b.expression 0) := by
  refine eq_of_run fun s => ?_
  have h := (opens_same b).around (follows_chain (follows_expression b s.tokens.size) 0)
  exact follows_same_iff.1 h s (Nat.lt_succ_self _)

/-- A body on its level is a list of statements, in which bodies are read by the same parser. -/
theorem body_eq (b : Bracket σ) :
    b.body = b.around (listing b.expression b.consumes_expression b.body) := by
  refine eq_of_run fun s => ?_
  have h := (opens_same b).around (Pairing.Follows.listing (b.consumes_expressionWithin _)
    b.consumes_expression (follows_expression b (s.tokens.size + 1)) (follows_body b s.tokens.size))
  exact follows_same_iff.1 h s (Nat.lt_succ_self _)

end Bracket

end FlatScript.Parser
