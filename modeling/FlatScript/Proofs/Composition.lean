import FlatScript.Proofs.Agreement

namespace FlatScript.Parser

variable {σ : Type} [TokenSource σ] {α β γ : Type}

/-- A property of parsers in front of states that holds of the single steps, of errors that are not
about a literal and of reading the literal of the next token, and that passes through `bind`. -/
structure Composes (P : ∀ {α : Type}, ParserState σ → Parser σ α → Prop) : Prop where
  pure : ∀ {α : Type} (s : ParserState σ) (a : α), P s (Pure.pure a)
  bind : ∀ {α β : Type} {s : ParserState σ} {p : Parser σ α} {f : α → Parser σ β}, P s p →
    (∀ a s', p.run s = (.ok a, s') → P s' (f a)) → P s (p >>= f)
  next : ∀ s, P s Parser.next
  peek : ∀ s, P s Parser.peek
  peek2 : ∀ s, P s Parser.peek2
  fresh : ∀ s, P s Parser.fresh
  fail : ∀ {α : Type} (s : ParserState σ) (c : Complaint) (t : Token),
    (∀ kind, c ≠ .literal kind) → P s (Parser.fail (c.about t) : Parser σ α)
  literal : ∀ {s : ParserState σ} {t : Token} {r : Except ParseError Expr}, s.answer 0 = .ok t →
    literal? t = some r → P s (do
      let _ ← Parser.next
      ofExcept r)

namespace Composes

variable {P : ∀ {α : Type}, ParserState σ → Parser σ α → Prop} (h : Composes P)

include h

theorem map {s : ParserState σ} {p : Parser σ α} (hp : P s p) (f : α → β) : P s (f <$> p) :=
  h.bind hp fun a s' _ => h.pure s' (f a)

omit h in
theorem ite {s : ParserState σ} {c : Prop} [Decidable c] {p q : Parser σ α} (hp : P s p)
    (hq : P s q) : P s (if c then p else q) := by
  split
  · exact hp
  · exact hq

theorem unexpected (expected : Expectation) (t : Token) (s : ParserState σ) :
    P s (Parser.unexpected expected t : Parser σ α) :=
  h.fail s (.unexpected expected) t fun _ => by simp

theorem accept (pick : Token → Option α) (s : ParserState σ) : P s (Parser.accept? pick) := by
  refine h.bind (h.peek s) fun t s₁ _ => ite (h.pure s₁ none) ?_
  split
  · exact h.pure s₁ none
  · exact h.bind (h.next s₁) fun _ s₂ _ => h.pure s₂ _

theorem skip (text : String) (s : ParserState σ) : P s (Parser.skip? text) :=
  h.bind (h.accept _ s) fun found s₁ _ => h.pure s₁ found.isSome

theorem many {pick : Token → Option γ} {p : γ → Parser σ α} (hp : ∀ c s, P s (p c))
    (s : ParserState σ) : P s (Parser.many pick p) := by
  -- Each round takes a token, so the induction is on what is left to read.
  induction hn : s.tokens.size using Nat.strongRecOn generalizing s with
  | _ n ih =>
    rw [many_eq]
    refine h.bind (h.accept pick s) fun r s₁ ha => ?_
    cases r with
    | none => exact h.pure s₁ []
    | some c =>
      refine h.bind (hp c s₁) fun a s₂ hr => ?_
      have hlt : s₂.tokens.size < n :=
        hn ▸ Nat.lt_of_le_of_lt (size_of_run hr) (size_accept_lt ha)
      exact h.bind (ih _ hlt s₂ rfl) fun as s₃ _ => h.pure s₃ (a :: as)

theorem manyUntil {stop : Token → Bool} {p : Parser σ α} {hc : p.Consumes} (hp : ∀ s, P s p)
    (s : ParserState σ) : P s (Parser.manyUntil stop p hc) := by
  induction hn : s.tokens.size using Nat.strongRecOn generalizing s with
  | _ n ih =>
    rw [manyUntil_eq]
    refine h.bind (h.peek s) fun t s₁ ht => ite (h.pure s₁ []) ?_
    refine h.bind (hp s₁) fun a s₂ hr => ?_
    have hlt : s₂.tokens.size < s₁.tokens.size := by
      have hs := hc s₁ a (by rw [hr])
      rwa [hr] at hs
    have hlt' : s₂.tokens.size < n := hn ▸ Nat.lt_of_lt_of_le hlt (size_of_run ht)
    exact h.bind (ih _ hlt' s₂ rfl) fun as s₃ _ => h.pure s₃ (a :: as)

theorem identifier (expected : Expectation) (s : ParserState σ) :
    P s (Parser.identifier expected) :=
  h.bind (h.next s) fun t s₁ _ => ite (h.pure s₁ t.text) (h.unexpected expected t s₁)

theorem separator (text : String) (expected : Expectation) (s : ParserState σ) :
    P s (Parser.separator text expected) :=
  h.bind (h.next s) fun t s₁ _ => ite (h.pure s₁ ()) (h.unexpected expected t s₁)

theorem tooDeep (s : ParserState σ) : P s (Parser.tooDeep : Parser σ α) :=
  h.bind (h.peek s) fun t s₁ _ => h.fail s₁ .tooDeep t fun _ => by simp

section Expressions

variable {expression : Parser σ Expr} (he : ∀ s, P s expression)

include he

theorem arguments (s : ParserState σ) : P s (Parser.arguments expression) := by
  refine h.bind (h.separator _ _ s) fun _ s₁ _ => h.bind (h.skip _ s₁) fun found s₂ _ => ?_
  refine ite (h.pure s₂ []) (h.bind (he s₂) fun first s₃ _ => ?_)
  refine h.bind (h.many (fun _ => he) s₃) fun rest s₄ _ => ?_
  exact h.bind (h.separator _ _ s₄) fun _ s₅ _ => h.pure s₅ (first :: rest)

theorem reference (s : ParserState σ) : P s (Parser.reference expression) := by
  refine h.bind (h.peek2 s) fun after s₁ _ => ?_
  refine h.bind (h.identifier _ s₁) fun name s₂ _ => ite ?_ ?_
  · refine h.bind (h.separator _ _ s₂) fun _ s₃ _ => ?_
    refine h.bind (h.identifier _ s₃) fun function s₄ _ => ?_
    exact h.bind (h.arguments he s₄) fun es s₅ _ => h.pure s₅ _
  · refine h.bind (h.fresh s₂) fun id s₃ _ => ite ?_ (h.pure s₃ _)
    exact h.bind (h.arguments he s₃) fun es s₄ _ => h.pure s₄ _

theorem group (s : ParserState σ) : P s (Parser.group expression) :=
  h.bind (h.separator _ _ s) fun _ s₁ _ => h.bind (he s₁) fun e s₂ _ =>
    h.bind (h.separator _ _ s₂) fun _ s₃ _ => h.pure s₃ e

theorem operand (s : ParserState σ) : P s (Parser.operand expression) := by
  rw [operand_eq]
  refine h.bind (h.peek s) fun t s₁ hp => ?_
  rw [operandOf]
  refine ite (h.reference he s₁) (ite (h.group he s₁) ?_)
  split
  next r hl => exact h.literal (looks_peek.answer_of_run (peek_of_peek hp)).1 hl
  next => exact h.unexpected _ t s₁

theorem chain (min : Nat) (s : ParserState σ) : P s (Parser.chain expression min) := by
  induction min using chain.induct generalizing s with
  | case1 min ih =>
    rw [Parser.chain]
    refine h.bind (h.operand he s) fun first s₁ _ => ?_
    refine h.bind (h.many (fun op s₂ => ?_) s₁) fun rest s₂ _ => h.pure s₂ _
    exact h.bind (ih op s₂) fun right s₃ _ => h.pure s₃ (op.val, right)

end Expressions

theorem expression (levels : Nat) (s : ParserState σ) : P s (Parser.expression levels) := by
  induction levels generalizing s with
  | zero => exact h.tooDeep s
  | succ levels ih => exact h.chain ih 0 s

section Statements

variable {expression : Parser σ Expr} {body : Parser σ (List Statement)}
  (he : ∀ s, P s expression) (hb : ∀ s, P s body)

theorem importStatement (s : ParserState σ) : P s Parser.importStatement := by
  refine h.bind (h.next s) fun _ s₁ _ => h.bind (h.next s₁) fun t s₂ _ => ite (ite ?_ ?_) ?_
  · exact h.bind (h.skip _ s₂) fun _ s₃ _ => h.pure s₃ _
  · exact h.fail s₂ .importPath t fun _ => by simp
  · exact h.unexpected _ t s₂

include hb in
theorem functionStatement (s : ParserState σ) : P s (Parser.functionStatement body) :=
  h.bind (h.next s) fun _ s₁ _ => h.bind (h.identifier _ s₁) fun _ s₂ _ =>
    h.bind (h.separator _ _ s₂) fun _ s₃ _ => h.bind (h.separator _ _ s₃) fun _ s₄ _ =>
      h.bind (h.separator _ _ s₄) fun _ s₅ _ => h.bind (hb s₅) fun _ s₆ _ =>
        h.bind (h.separator _ _ s₆) fun _ s₇ _ => h.pure s₇ _

theorem declaredType (s : ParserState σ) : P s Parser.declaredType :=
  h.bind (h.skip _ s) fun _ s₁ _ => ite (h.identifier _ s₁) (h.pure s₁ _)

include he in
theorem initialValue (s : ParserState σ) : P s (Parser.initialValue expression) :=
  h.bind (h.accept _ s) fun _ s₁ _ => ite (h.map (he s₁) some) (h.pure s₁ none)

include he in
theorem variableStatement (s : ParserState σ) : P s (Parser.variableStatement expression) := by
  rw [variableStatement_eq]
  refine h.bind (h.next s) fun _ s₁ _ => h.bind (h.identifier _ s₁) fun name s₂ _ => ?_
  refine h.bind (h.declaredType s₂) fun typeName s₃ _ => ?_
  refine h.bind (h.initialValue he s₃) fun init s₄ _ => ?_
  exact h.bind (h.skip _ s₄) fun _ s₅ _ => h.pure s₅ _

include he in
theorem expressionStatement (s : ParserState σ) : P s (Parser.expressionStatement expression) :=
  h.bind (he s) fun _ s₁ _ => h.bind (h.skip _ s₁) fun _ s₂ _ => h.pure s₂ _

include he hb in
theorem statement (s : ParserState σ) : P s (Parser.statement expression body) := by
  refine h.bind (h.peek s) fun t s₁ _ => ite (ite ?_ (ite ?_ (ite ?_ ?_))) (ite ?_ ?_)
  · exact h.importStatement s₁
  · exact h.functionStatement hb s₁
  · exact h.variableStatement he s₁
  · exact h.fail s₁ .reserved t fun _ => by simp
  · exact h.expressionStatement he s₁
  · exact h.unexpected _ t s₁

end Statements

theorem statements (levels : Nat) (s : ParserState σ) : P s (Parser.statements levels) := by
  induction levels generalizing s with
  | zero => exact h.manyUntil (h.statement (h.expression 0) h.tooDeep) s
  | succ levels ih => exact h.manyUntil (h.statement (h.expression _) ih) s

theorem program (s : ParserState σ) : P s Parser.program :=
  h.bind (h.statements maxNesting s) fun _ s₁ _ => h.bind (h.peek s₁) fun t s₂ _ =>
    ite (h.pure s₂ _) (h.unexpected _ t s₂)

end Composes

end FlatScript.Parser
