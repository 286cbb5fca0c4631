import FlatScript.Proofs.Footprint

namespace FlatScript.Parser

variable {σ τ : Type} [TokenSource σ] [TokenSource τ] {α β γ : Type}

section Relations

variable (rel : ParserState σ → ParserState τ → Prop) (off : ParseError → ParserState τ → Prop)

/-- How two runs may end: in the same, in corresponding states, or the first one in an error that
has cut it off, and then the second one anyhow. -/
inductive Meets (x : Except ParseError α × ParserState σ) (y : Except ParseError α × ParserState τ) :
    Prop
  | same (hr : x.1 = y.1) (h : rel x.2 y.2)
  | cut {e : ParseError} (he : x.1 = .error e) (h : off e y.2)

/-- From corresponding states with less than `n` to read, the runs of the two parsers meet; what has
cut off the first one stays as the second one goes on. -/
structure Follows (n : Nat) (p : Parser σ α) (q : Parser τ α) : Prop where
  run : ∀ s t, rel s t → s.tokens.size < n → Meets rel off (p.run s) (q.run t)
  keeps : ∀ e t, off e t → off e (q.run t).2

end Relations

section Combinators

variable {rel : ParserState σ → ParserState τ → Prop} {off : ParseError → ParserState τ → Prop}
  {n m : Nat} {p : Parser σ α} {q : Parser τ α} {f : α → Parser σ β} {g : α → Parser τ β}

theorem Follows.mono (h : Follows rel off n p q) (hle : m ≤ n) : Follows rel off m p q :=
  ⟨fun s t hst hs => h.run s t hst (Nat.lt_of_lt_of_le hs hle), h.keeps⟩

theorem follows_pure (n : Nat) (a : α) :
    Follows rel off n (pure a : Parser σ α) (pure a : Parser τ α) :=
  ⟨fun _ _ hst _ => .same rfl hst, fun _ _ h => h⟩

theorem follows_fail (n : Nat) (e : ParseError) :
    Follows rel off n (fail e : Parser σ α) (fail e : Parser τ α) :=
  ⟨fun _ _ hst _ => .same rfl hst, fun _ _ h => h⟩

theorem follows_unexpected (n : Nat) (expected : Expectation) (t : Token) :
    Follows rel off n (unexpected expected t : Parser σ α) (unexpected expected t : Parser τ α) :=
  follows_fail n _

theorem follows_ofExcept (n : Nat) (r : Except ParseError α) :
    Follows rel off n (ofExcept r : Parser σ α) (ofExcept r : Parser τ α) := by
  cases r with
  | ok a => exact follows_pure n a
  | error e => exact follows_fail n e

theorem keeps_bind (hq : ∀ e t, off e t → off e (q.run t).2)
    (hg : ∀ a e t, off e t → off e ((g a).run t).2) (e : ParseError) (t : ParserState τ)
    (h : off e t) : off e ((q >>= g).run t).2 := by
  have h₁ := hq e t h
  rw [run_bind]
  split
  next a t' hr =>
    rw [hr] at h₁
    exact hg a e t' h₁
  next e' t' hr =>
    rw [hr] at h₁
    exact h₁

theorem Follows.bind_of {m : α → Nat} (hp : Follows rel off n p q)
    (hf : ∀ a, Follows rel off (m a) (f a) (g a))
    (hm : ∀ s a s', s.tokens.size < n → p.run s = (.ok a, s') → s'.tokens.size < m a) :
    Follows rel off n (p >>= f) (q >>= g) := by
  refine ⟨fun s t hst hs => ?_, keeps_bind hp.keeps fun a => (hf a).keeps⟩
  have h := hp.run s t hst hs
  have hsize := hm s
  rw [run_bind, run_bind]
  generalize p.run s = x, q.run t = y at h hsize
  obtain ⟨r, s'⟩ := x
  obtain ⟨r', t'⟩ := y
  cases h with
  | same hr h =>
    obtain rfl : r = r' := hr
    cases r with
    | error e => exact .same rfl h
    | ok a => exact (hf a).run s' t' h (hsize a s' hs rfl)
  | @cut e he h =>
    obtain rfl : r = .error e := he
    refine .cut rfl ?_
    cases r' with
    | error e' => exact h
    | ok a => exact (hf a).keeps e t' h

theorem Follows.bind (hp : Follows rel off n p q) (hf : ∀ a, Follows rel off n (f a) (g a)) :
    Follows rel off n (p >>= f) (q >>= g) :=
  hp.bind_of hf fun _ _ _ hs hr => Nat.lt_of_le_of_lt (size_of_run hr) hs

theorem Follows.bind_consuming (hp : Follows rel off (n + 1) p q) (hc : p.Consumes)
    (hf : ∀ a, Follows rel off n (f a) (g a)) : Follows rel off (n + 1) (p >>= f) (q >>= g) := by
  refine hp.bind_of hf fun s a s' hs hr => ?_
  have hlt := hc s a (by rw [hr])
  rw [hr] at hlt
  exact Nat.lt_of_lt_of_le hlt (Nat.le_of_lt_succ hs)

theorem Follows.map (hp : Follows rel off n p q) (f : α → β) :
    Follows rel off n (f <$> p) (f <$> q) :=
  hp.bind fun a => follows_pure n (f a)

theorem Follows.ite {c : Prop} [Decidable c] {p' : Parser σ α} {q' : Parser τ α}
    (h : Follows rel off n p q) (h' : Follows rel off n p' q') :
    Follows rel off n (if c then p else p') (if c then q else q') := by
  split
  · exact h
  · exact h'

end Combinators

/-- A correspondence of parser states that the single steps keep. -/
structure Pairing (σ τ : Type) [TokenSource σ] [TokenSource τ] where
  rel : ParserState σ → ParserState τ → Prop
  off : ParseError → ParserState τ → Prop
  next : ∀ n, Follows rel off n next next
  peek : ∀ n, Follows rel off n peek peek
  peek2 : ∀ n, Follows rel off n peek2 peek2
  fresh : ∀ n, Follows rel off n fresh fresh

abbrev Pairing.Follows (P : Pairing σ τ) (n : Nat) (p : Parser σ α) (q : Parser τ α) : Prop :=
  Parser.Follows P.rel P.off n p q

section Pass

variable (P : Pairing σ τ) (n : Nat)

theorem follows_tooDeep : P.Follows n (tooDeep : Parser σ α) (tooDeep : Parser τ α) :=
  (P.peek n).bind fun _ => follows_fail n _

theorem follows_accept (pick : Token → Option α) :
    P.Follows n (accept? pick : Parser σ _) (accept? pick : Parser τ _) := by
  refine (P.peek n).bind fun t => .ite (follows_pure n none) ?_
  split
  · exact follows_pure n none
  · exact (P.next n).bind fun _ => follows_pure n _

theorem follows_skip (text : String) :
    P.Follows n (skip? text : Parser σ Bool) (skip? text : Parser τ Bool) :=
  (follows_accept P n _).bind fun _ => follows_pure n _

theorem follows_identifier (expected : Expectation) :
    P.Follows n (identifier expected : Parser σ String) (identifier expected : Parser τ String) :=
  (P.next n).bind fun _ => .ite (follows_pure n _) (follows_unexpected n _ _)

theorem follows_separator (text : String) (expected : Expectation) :
    P.Follows n (separator text expected : Parser σ Unit)
      (separator text expected : Parser τ Unit) :=
  (P.next n).bind fun _ => .ite (follows_pure n _) (follows_unexpected n _ _)

variable {P n}

theorem Pairing.Follows.keeps_many {pick : Token → Option γ} {p : γ → Parser σ α}
    {q : γ → Parser τ α} (h : ∀ c, P.Follows n (p c) (q c)) (e : ParseError) (t : ParserState τ)
    (ht : P.off e t) : P.off e ((many pick q).run t).2 := by
  change P.off e (runMany pick q t).2
  have ha := fun t ht => (follows_accept P n pick).keeps e t ht
  fun_induction runMany pick q t with
  | case1 t e' t₁ hr | case2 t t₁ hr =>
    have h₁ := ha t ht
    rwa [hr] at h₁
  | case3 t c t₁ hr e' t₂ hq =>
    have h₁ := ha t ht
    rw [hr] at h₁
    have h₂ := (h c).keeps e t₁ h₁
    rwa [hq] at h₂
  | case4 t c t₁ hr a t₂ hq _ e' t₃ hm ih | case5 t c t₁ hr a t₂ hq _ as t₃ hm ih =>
    have h₁ := ha t ht
    rw [hr] at h₁
    have h₂ := (h c).keeps e t₁ h₁
    rw [hq] at h₂
    rw [hm] at ih
    exact ih h₂

theorem Pairing.Follows.many {pick : Token → Option γ} {p : γ → Parser σ α} {q : γ → Parser τ α}
    (h : ∀ c, P.Follows n (p c) (q c)) : P.Follows n (many pick p) (many pick q) := by
  -- By induction on what there is to read: each round takes a token.
  induction n with
  | zero => exact ⟨fun _ _ _ hs => absurd hs (Nat.not_lt_zero _), keeps_many h⟩
  | succ n ih =>
    have hn : ∀ c, P.Follows n (p c) (q c) := fun c => (h c).mono (Nat.le_succ n)
    rw [many_eq pick p, many_eq pick q]
    refine (follows_accept P (n + 1) pick).bind_of (m := fun c => if c.isSome then n else n + 1)
      (fun c => ?_) fun s c s' hs hr => ?_
    · cases c with
      | none => exact follows_pure _ []
      | some c => exact (hn c).bind fun a => (ih hn).bind fun as => follows_pure n (a :: as)
    · cases c with
      | none => exact Nat.lt_of_le_of_lt (size_of_run hr) hs
      | some c => exact Nat.lt_of_lt_of_le (size_accept_lt hr) (Nat.le_of_lt_succ hs)

theorem Pairing.Follows.keeps_manyUntil {stop : Token → Bool} {p : Parser σ α} {q : Parser τ α}
    (h : P.Follows n p q) (hc : q.Consumes) (e : ParseError) (t : ParserState τ)
    (ht : P.off e t) : P.off e ((manyUntil stop q hc).run t).2 := by
  change P.off e (runManyUntil stop q hc t).2
  fun_induction runManyUntil stop q hc t with
  | case1 t e' t₁ hr | case2 t u t₁ hr =>
    have h₁ := (P.peek n).keeps e t ht
    rwa [hr] at h₁
  | case3 t u t₁ hr _ e' t₂ hq =>
    have h₁ := (P.peek n).keeps e t ht
    rw [hr] at h₁
    have h₂ := h.keeps e t₁ h₁
    rwa [hq] at h₂
  | case4 t u t₁ hr _ a t₂ hq _ e' t₃ hm ih | case5 t u t₁ hr _ a t₂ hq _ as t₃ hm ih =>
    have h₁ := (P.peek n).keeps e t ht
    rw [hr] at h₁
    have h₂ := h.keeps e t₁ h₁
    rw [hq] at h₂
    rw [hm] at ih
    exact ih h₂

theorem Pairing.Follows.manyUntil {stop : Token → Bool} {p : Parser σ α} {q : Parser τ α}
    (h : P.Follows n p q) (hp : p.Consumes) (hq : q.Consumes) :
    P.Follows n (manyUntil stop p hp) (manyUntil stop q hq) := by
  induction n with
  | zero => exact ⟨fun _ _ _ hs => absurd hs (Nat.not_lt_zero _), h.keeps_manyUntil hq⟩
  | succ n ih =>
    rw [manyUntil_eq stop p, manyUntil_eq stop q]
    refine (P.peek (n + 1)).bind fun t => .ite (follows_pure _ []) ?_
    refine h.bind_consuming hp fun a => ?_
    exact (ih (h.mono (Nat.le_succ n))).bind fun as => follows_pure n (a :: as)

/-! ### The grammar -/

section Expressions

variable {p : Parser σ Expr} {q : Parser τ Expr} (h : P.Follows n p q)

include h

theorem follows_arguments : P.Follows (n + 1) (arguments p) (arguments q) := by
  refine (follows_separator P _ _ _).bind_consuming (separator_consumes _ _) fun _ => ?_
  refine (follows_skip P n _).bind fun found => .ite (follows_pure n []) ?_
  refine h.bind fun first => (Pairing.Follows.many fun _ => h).bind fun rest => ?_
  exact (follows_separator P n _ _).bind fun _ => follows_pure n _

theorem follows_reference : P.Follows (n + 1) (reference p) (reference q) := by
  have ha := (follows_arguments h).mono (Nat.le_succ n)
  refine (P.peek2 _).bind fun after => ?_
  refine (follows_identifier P _ _).bind_consuming (identifier_consumes _) fun name => .ite ?_ ?_
  · refine (follows_separator P n _ _).bind fun _ => (follows_identifier P n _).bind fun _ => ?_
    exact ha.bind fun _ => follows_pure n _
  · refine (P.fresh n).bind fun id => .ite ?_ (follows_pure n _)
    exact ha.bind fun _ => follows_pure n _

theorem follows_group : P.Follows (n + 1) (group p) (group q) :=
  (follows_separator P _ _ _).bind_consuming (separator_consumes _ _) fun _ => h.bind fun _ =>
    (follows_separator P n _ _).bind fun _ => follows_pure n _

theorem follows_operand : P.Follows (n + 1) (operand p) (operand q) := by
  refine (P.peek _).bind fun t => .ite (follows_reference h) (.ite (follows_group h) ?_)
  refine (follows_accept P _ _).bind fun r => ?_
  split
  · exact follows_ofExcept _ _
  · exact follows_unexpected _ _ _

theorem follows_chain (min : Nat) : P.Follows (n + 1) (chain p min) (chain q min) := by
  induction min using chain.induct with
  | case1 min ih =>
    rw [chain, chain]
    refine (follows_operand h).bind fun first => ?_
    refine (Pairing.Follows.many fun op => ?_).bind fun rest => follows_pure _ _
    exact (ih op).bind fun right => follows_pure _ _

end Expressions

section Statements

theorem follows_importStatement :
    P.Follows n (importStatement : Parser σ Statement) (importStatement : Parser τ Statement) := by
  refine (P.next n).bind fun _ => (P.next n).bind fun t => .ite (.ite ?_ (follows_fail n _)) ?_
  · exact (follows_skip P n _).bind fun _ => follows_pure n _
  · exact follows_unexpected n _ _

theorem follows_functionStatement {b : Parser σ (List Statement)} {c : Parser τ (List Statement)}
    (h : P.Follows n b c) : P.Follows (n + 1) (functionStatement b) (functionStatement c) :=
  (P.next _).bind fun _ => (follows_identifier P _ _).bind_consuming (identifier_consumes _) fun _ =>
    (follows_separator P n _ _).bind fun _ => (follows_separator P n _ _).bind fun _ =>
      (follows_separator P n _ _).bind fun _ => h.bind fun _ =>
        (follows_separator P n _ _).bind fun _ => follows_pure n _

variable {p : Parser σ Expr} {q : Parser τ Expr}

theorem follows_variableStatement (h : P.Follows n p q) :
    P.Follows n (variableStatement p) (variableStatement q) := by
  rw [variableStatement_eq, variableStatement_eq]
  have ht : P.Follows n (declaredType : Parser σ String) (declaredType : Parser τ String) :=
    (follows_skip P n _).bind fun _ => .ite (follows_identifier P n _) (follows_pure n _)
  have hi : P.Follows n (initialValue p) (initialValue q) :=
    (follows_accept P n _).bind fun _ => .ite (h.map _) (follows_pure n _)
  refine (P.next n).bind fun _ => (follows_identifier P n _).bind fun name => ht.bind fun _ => ?_
  exact hi.bind fun _ => (follows_skip P n _).bind fun _ => follows_pure n _

theorem follows_expressionStatement (h : P.Follows n p q) :
    P.Follows n (expressionStatement p) (expressionStatement q) :=
  h.bind fun _ => (follows_skip P n _).bind fun _ => follows_pure n _

/-- An expression may begin where the statement does; a body stands behind a token. -/
theorem follows_statement {b : Parser σ (List Statement)} {c : Parser τ (List Statement)}
    (h : P.Follows (n + 1) p q) (hb : P.Follows n b c) :
    P.Follows (n + 1) (statement p b) (statement q c) := by
  refine (P.peek _).bind fun t => .ite (.ite ?_ (.ite ?_ (.ite ?_ ?_))) (.ite ?_ ?_)
  · exact follows_importStatement
  · exact follows_functionStatement hb
  · exact follows_variableStatement h
  · exact follows_fail _ _
  · exact follows_expressionStatement h
  · exact follows_unexpected _ _ _

end Statements

end Pass

end FlatScript.Parser
