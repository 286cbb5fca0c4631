import FlatScript.Proofs.Footprint

namespace FlatScript.Parser

variable {σ τ : Type} [TokenSource σ] [TokenSource τ] {α β : Type}

/-! ### Lexemes decide -/

variable {t t' : Token}

theorem kind_eq_iff_of_lexeme (h : t'.lexeme = t.lexeme) (k : Token.Kind) :
    t'.kind = k ↔ t.kind = k := by
  have hk : t'.kind = t.kind := congrArg Lexeme.kind h
  rw [hk]

theorem text_eq_of_lexeme (h : t'.lexeme = t.lexeme) : t'.text = t.text := congrArg Lexeme.text h

theorem isSeparator_eq_of_lexeme (h : t'.lexeme = t.lexeme) (text : String) :
    t'.isSeparator text = t.isSeparator text := by
  rw [Bool.eq_iff_iff, isSeparator_iff, isSeparator_iff, h]

theorem isOperator_eq_of_lexeme (h : t'.lexeme = t.lexeme) (text : String) :
    t'.isOperator text = t.isOperator text := by
  have hk : t'.kind = t.kind := congrArg Lexeme.kind h
  rw [Token.isOperator, hk, text_eq_of_lexeme h, Token.isOperator]

theorem ignoresPlace_separator (text : String) :
    IgnoresPlace fun t => if t.isSeparator text then some () else none := by
  intro t t' h
  simp only [isSeparator_eq_of_lexeme h]

theorem ignoresPlace_tighter (min : Nat) : IgnoresPlace (tighter? min) := by
  intro t t' h
  have hk : t'.kind = t.kind := congrArg Lexeme.kind h
  rw [tighter?, hk, text_eq_of_lexeme h, tighter?]

/-! ### Tokens -/

theorem agrees_identifier (expected : Expectation) (s : ParserState σ) :
    Agrees s (identifier expected : Parser σ String) (identifier expected : Parser τ String) := by
  refine agrees_look_ite looks_next looks_next (fun t t' h => kind_eq_iff_of_lexeme h .identifier)
    (.unexpected expected) fun t s₁ _ _ => ⟨agrees_pure s₁ t.text, fun t' h => ?_⟩
  rw [text_eq_of_lexeme h]

theorem agrees_separator (text : String) (expected : Expectation) (s : ParserState σ) :
    Agrees s (separator text expected : Parser σ Unit)
      (separator text expected : Parser τ Unit) := by
  refine agrees_look_ite looks_next looks_next (fun t t' h => ?_) (.unexpected expected)
    fun t s₁ _ _ => ⟨agrees_pure s₁ (), fun _ _ => rfl⟩
  rw [isSeparator_eq_of_lexeme h]

theorem agrees_skip (text : String) (s : ParserState σ) :
    Agrees s (skip? text : Parser σ Bool) (skip? text : Parser τ Bool) :=
  (agrees_accept (ignoresPlace_separator text) s).bind fun found s₁ _ => agrees_pure s₁ found.isSome

theorem agrees_tooDeep (s : ParserState σ) :
    Agrees s (tooDeep : Parser σ α) (tooDeep : Parser τ α) := by
  refine agrees_look_bind looks_peek looks_peek fun t s₁ _ => .inr ⟨.tooDeep, ?_, ?_⟩
  · exact fun _ _ _ _ _ => rfl
  · exact fun _ _ _ _ _ => rfl

/-! ### References -/

/-- From `s` on, the parsers stop in the same; behind an error the states may differ. -/
def SameFrom (s : ParserState σ) (p q : Parser σ α) : Prop :=
  p.run s = q.run s ∨ ∃ e, (p.run s).1 = .error e ∧ (q.run s).1 = .error e

variable {s : ParserState σ} {p q : Parser σ α} {p' q' : Parser τ α}

theorem SameFrom.symm (h : SameFrom s p q) : SameFrom s q p :=
  h.imp Eq.symm fun ⟨e, hp, hq⟩ => ⟨e, hq, hp⟩

theorem SameFrom.fst_eq (h : SameFrom s p q) : (p.run s).1 = (q.run s).1 := by
  rcases h with h | ⟨e, hp, hq⟩
  · rw [h]
  · rw [hp, hq]

theorem SameFrom.run_eq {a : α} {s' : ParserState σ} (h : SameFrom s p q)
    (hp : p.run s = (.ok a, s')) : q.run s = (.ok a, s') := by
  rcases h with h | ⟨e, he, -⟩
  · rw [← h, hp]
  · rw [hp] at he
    exact nomatch he

theorem StopsAt.congr {k : Nat} {v : Verdict α} (h : SameFrom s p q) (hp : p.StopsAt s k v) :
    q.StopsAt s k v := by
  cases v with
  | accept a id =>
    obtain ⟨s', hr, hs'⟩ := hp
    exact ⟨s', h.run_eq hr, hs'⟩
  | reject c => exact h.fst_eq.symm.trans hp

theorem Agrees.congr (hs : s.answer 0 = .ok t) (h : SameFrom s p q)
    (h' : ∀ (s' : ParserState τ) t', s'.answer 0 = .ok t' → t'.lexeme = t.lexeme →
      SameFrom s' p' q') (hq : Agrees s q q') : Agrees s p p' := by
  obtain ⟨k, v, hq⟩ := hq
  refine ⟨k, v, hq.taken, hq.stops.congr h.symm, fun s' hid hs' hc => ?_⟩
  obtain ⟨t', ht', hl⟩ := exists_first hs hs' hc
  exact (hq.agrees s' hid hs' hc).congr (h' s' t' ht' hl).symm

section Expressions

variable {expression : Parser σ Expr} {expression' : Parser τ Expr}

/-- What follows the name that a reference begins with, given the token behind the name. -/
def referenceTail (expression : Parser σ Expr) (name : String) (after : Token) : Parser σ Expr := do
  if after.isSeparator "::" then
    separator "::" .moduleSeparator
    let function ← identifier .externalName
    return .externalCall name function (← arguments expression)
  else
    let id ← fresh
    if after.isSeparator "(" then return .call id name (← arguments expression)
    return .variable id name

/-- A reference as it is read without looking behind a token that has not been taken. -/
def referenceByName (expression : Parser σ Expr) : Parser σ Expr := do
  let name ← next
  let after ← peek
  referenceTail expression name.text after

theorem fst_ofTokens_of_error {step : Lookahead σ → Except LexError Token × Lookahead σ}
    {hs : ∀ l, (step l).2.size ≤ l.size} {e : LexError} (h : (step s.tokens).1 = .error e) :
    ((ofTokens step hs).run s).1 = .error (.lex e) := by
  simp only [ofTokens]
  split
  next hr => simp [hr] at h
  next e' l hr =>
    rw [hr] at h
    rw [Except.error.inj h]

theorem sameFrom_referenceByName (expression : Parser σ Expr) (ht : s.answer 0 = .ok t)
    (hk : t.kind = .identifier) :
    SameFrom s (reference expression) (referenceByName expression) := by
  have hr : reference expression = peek2 >>= fun after =>
      identifier (if after.isSeparator "::" then .moduleName else .calledName) >>= fun name =>
        referenceTail expression name after := rfl
  have hb : referenceByName expression = next >>= fun name => peek >>= fun after =>
      referenceTail expression name.text after := rfl
  obtain ⟨s₁, hn, hid, -⟩ := looks_next.exists_run ht
  have hn₁ : s.tokens.next.2 = s₁.tokens := congrArg Prod.snd (run_next_eq_ok.1 hn).1
  rcases s.tokens.peek2_next ht with ⟨e, hp, hp'⟩ | ⟨u, l₁, l₂, hp, hl, hp'⟩
  · rw [hn₁] at hp'
    refine .inr ⟨.lex e, ?_, ?_⟩
    · rw [hr]
      exact fst_bind_of_error (fst_ofTokens_of_error hp) _
    · rw [hb, run_bind, hn]
      exact fst_bind_of_error (fst_ofTokens_of_error hp') _
  · rw [hn₁] at hp'
    have hp2 : peek2.run s = (.ok u, ⟨l₁, s.nextId⟩) := run_peek2_eq_ok.2 ⟨hp, rfl⟩
    have hn2 : next.run (⟨l₁, s.nextId⟩ : ParserState σ) = (.ok t, ⟨l₂, s.nextId⟩) :=
      run_next_eq_ok.2 ⟨hl, rfl⟩
    have hpk : peek.run s₁ = (.ok u, ⟨l₂, s.nextId⟩) := run_peek_eq_ok.2 ⟨hp', hid.symm⟩
    refine .inl ?_
    rw [hr, hb, run_bind, hp2, run_bind, hn]
    simp only [identifier, run_bind, hn2, if_pos hk, run_pure, hpk]

variable (he : ∀ s : ParserState σ, Agrees s expression expression')

include he

theorem agrees_arguments (s : ParserState σ) :
    Agrees s (arguments expression) (arguments expression') := by
  refine (agrees_separator _ _ s).bind fun _ s₁ _ => (agrees_skip _ s₁).bind fun found s₂ _ => ?_
  split
  · exact agrees_pure s₂ []
  · refine (he s₂).bind fun first s₃ _ => ?_
    refine (agrees_many (ignoresPlace_separator ",") (fun _ => he) s₃).bind fun rest s₄ _ => ?_
    exact (agrees_separator _ _ s₄).bind fun _ s₅ _ => agrees_pure s₅ _

theorem agrees_referenceTail (name : String) (after : Token) (s : ParserState σ) :
    Agrees s (referenceTail expression name after) (referenceTail expression' name after) := by
  unfold referenceTail
  split
  · refine (agrees_separator _ _ s).bind fun _ s₁ _ => ?_
    refine (agrees_identifier _ s₁).bind fun f s₂ _ => ?_
    exact (agrees_arguments he s₂).bind fun es s₃ _ => agrees_pure s₃ _
  · refine (agrees_fresh s).bind fun id s₁ _ => ?_
    split
    · exact (agrees_arguments he s₁).bind fun es s₂ _ => agrees_pure s₂ _
    · exact agrees_pure s₁ _

theorem agrees_referenceByName (s : ParserState σ) :
    Agrees s (referenceByName expression) (referenceByName expression') := by
  refine agrees_look_bind looks_next looks_next fun name s₁ _ => .inl ⟨?_, fun name' h => ?_⟩
  · refine agrees_look_bind looks_peek looks_peek fun after s₂ _ => .inl ⟨?_, fun after' h => ?_⟩
    · exact agrees_referenceTail he name.text after s₂
    · simp only [referenceTail, isSeparator_eq_of_lexeme h]
  · rw [text_eq_of_lexeme h]

theorem agrees_reference (ht : s.answer 0 = .ok t) (hk : t.kind = .identifier) :
    Agrees s (reference expression) (reference expression') :=
  .congr ht (sameFrom_referenceByName expression ht hk)
    (fun _ _ ht' h => sameFrom_referenceByName expression' ht' ((kind_eq_iff_of_lexeme h _).2 hk))
    (agrees_referenceByName he s)

theorem agrees_group (s : ParserState σ) : Agrees s (group expression) (group expression') :=
  (agrees_separator _ _ s).bind fun _ s₁ _ => (he s₁).bind fun e s₂ _ =>
    (agrees_separator _ _ s₂).bind fun _ s₃ _ => agrees_pure s₃ e

omit he

theorem kind_of_literal {r : Except ParseError Expr} (h : literal? t = some r) :
    t.kind ≠ .identifier ∧ t.isSeparator "(" = false ∧ t.isEof = false := by
  refine ⟨?_, ?_, ?_⟩
  · intro hk
    simp [literal?, hk] at h
  · cases hs : t.isSeparator "(" with
    | false => rfl
    | true =>
      have hk : t.kind = .separator := congrArg Lexeme.kind (isSeparator_iff.1 hs)
      simp [literal?, hk] at h
  · cases he : t.isEof with
    | false => rfl
    | true =>
      have hk : t.kind = .eof := by simpa [Token.isEof] using he
      simp [literal?, hk] at h

def operandOf (expression : Parser σ Expr) (t : Token) : Parser σ Expr :=
  if t.kind = .identifier then reference expression
  else if t.isSeparator "(" then group expression
  else
    match literal? t with
    | some r => do
      let _ ← next
      ofExcept r
    | none => unexpected .expression t

theorem operandOf_identifier (expression : Parser σ Expr) (hk : t.kind = .identifier) :
    operandOf expression t = reference expression := if_pos hk

theorem operandOf_group (expression : Parser σ Expr) (hs : t.lexeme = .separator "(") :
    operandOf expression t = group expression := by
  have hk : t.kind = .separator := congrArg Lexeme.kind hs
  rw [operandOf, if_neg (by simp [hk]), if_pos (isSeparator_iff.2 hs)]

theorem operandOf_literal (expression : Parser σ Expr) {r : Except ParseError Expr}
    (h : literal? t = some r) :
    operandOf expression t = (do
      let _ ← next
      ofExcept r) := by
  obtain ⟨hk, hs, -⟩ := kind_of_literal h
  rw [operandOf, if_neg hk, hs, if_neg Bool.false_ne_true, h]

theorem operandOf_other (expression : Parser σ Expr) (hk : t.kind ≠ .identifier)
    (hs : t.lexeme ≠ .separator "(") (hl : literal? t = none) :
    operandOf expression t = unexpected .expression t := by
  rw [operandOf, if_neg hk, if_neg (mt isSeparator_iff.1 hs), hl]

theorem operand_eq (expression : Parser σ Expr) :
    operand expression = peek >>= operandOf expression := by
  refine eq_of_run fun s => ?_
  rw [operand, run_bind, run_bind]
  split
  next t s₁ hp =>
    rw [operandOf]
    split
    next => rfl
    next =>
      split
      next => rfl
      next =>
        have hq := peek_of_peek hp
        cases hl : literal? t with
        | none =>
          have ha : (accept? literal?).run s₁ = (.ok none, s₁) :=
            run_accept_eq_none.2 ⟨t, hq, .inr hl⟩
          rw [run_bind, ha]
        | some r =>
          obtain ⟨-, -, he⟩ := kind_of_literal hl
          simp only [accept?, run_bind, hq, he, hl, Bool.false_eq_true, if_false]
          rcases next.run s₁ with ⟨e | u, s₂⟩
          · rfl
          · rfl
  next => rfl

/-- Whether a token writes a literal, and which one, is settled by its lexeme. -/
theorem literal_of_lexeme (t : Token) :
    (∀ t', t'.lexeme = t.lexeme → literal? t' = none) ∨
      (∃ e, ∀ t', t'.lexeme = t.lexeme → literal? t' = some (.ok e)) ∨
      ∃ kind, ∀ t', t'.lexeme = t.lexeme →
        literal? t' = some (.error ((Complaint.literal kind).about t')) := by
  obtain ⟨kind, text, place⟩ := t
  have hl : ∀ {P : Token → Prop}, (∀ place', P ⟨kind, text, place'⟩) →
      ∀ t', t'.lexeme = Token.lexeme ⟨kind, text, place⟩ → P t' := by
    rintro P h ⟨kind', text', place'⟩ ht
    obtain ⟨rfl, rfl⟩ : kind' = kind ∧ text' = text := by simpa [Token.lexeme] using ht
    exact h place'
  cases kind with
  | integerLiteral =>
    cases hn : readInt64? text.toList with
    | some n => exact .inr (.inl ⟨.integer n, hl fun _ => by simp [literal?, hn]⟩)
    | none => exact .inr (.inr ⟨.integer, hl fun _ => by simp [literal?, hn, Complaint.about]⟩)
  | decimalLiteral =>
    cases hd : Decimal.read? text.toList with
    | some d =>
      exact .inr (.inl ⟨.decimal (Single.ofDecimal d), hl fun _ => by simp [literal?, hd]⟩)
    | none => exact .inr (.inr ⟨.decimal, hl fun _ => by simp [literal?, hd, Complaint.about]⟩)
  | stringLiteral => exact .inr (.inl ⟨.string text, hl fun _ => rfl⟩)
  | booleanLiteral => exact .inr (.inl ⟨.boolean (text == "true"), hl fun _ => rfl⟩)
  | nullLiteral => exact .inr (.inl ⟨.null, hl fun _ => rfl⟩)
  | keyword | identifier | separator | operator | eof => exact .inl (hl fun _ => rfl)

theorem refuses_operandOf (expression : Parser σ Expr) {c : Complaint}
    (hl : ∀ t', t'.lexeme = t.lexeme → literal? t' = some (.error (c.about t'))) :
    Refuses peek (operandOf expression) c t := by
  intro t' s s' h hp
  obtain ⟨u, hn, -⟩ := looks_next.exists_run (looks_peek.answer_of_run (peek_of_peek hp)).1
  rw [operandOf_literal expression (hl t' h), run_bind, hn]
  rfl

include he in
theorem agrees_operand (s : ParserState σ) :
    Agrees s (operand expression) (operand expression') := by
  rw [operand_eq, operand_eq]
  refine agrees_look_bind looks_peek looks_peek fun t s₁ hp => ?_
  obtain ⟨ht, -, -⟩ := looks_peek.answer_of_run (peek_of_peek hp)
  by_cases hk : t.kind = .identifier
  · refine .inl ⟨?_, fun t' h => ?_⟩
    · rw [operandOf_identifier _ hk, operandOf_identifier _ hk]
      exact agrees_reference he ht hk
    · rw [operandOf_identifier _ hk, operandOf_identifier _ ((kind_eq_iff_of_lexeme h _).2 hk)]
  by_cases hs : t.lexeme = .separator "("
  · refine .inl ⟨?_, fun t' h => ?_⟩
    · rw [operandOf_group _ hs, operandOf_group _ hs]
      exact agrees_group he s₁
    · rw [operandOf_group _ hs, operandOf_group _ (h.trans hs)]
  rcases literal_of_lexeme t with hl | ⟨e, hl⟩ | ⟨kind, hl⟩
  · have hr : ∀ {ρ : Type} [TokenSource ρ] (e : Parser ρ Expr),
        Refuses peek (operandOf e) (.unexpected .expression) t := by
      intro ρ _ e t' u u' h _
      rw [operandOf_other e (mt (kind_eq_iff_of_lexeme h _).1 hk) (h ▸ hs) (hl t' h)]
      rfl
    exact .inr ⟨_, hr expression, hr expression'⟩
  · refine .inl ⟨?_, fun t' h => ?_⟩
    · rw [operandOf_literal _ (hl t rfl), operandOf_literal _ (hl t rfl)]
      refine agrees_look_bind looks_next looks_next fun u s₂ _ => .inl ⟨?_, fun _ _ => rfl⟩
      exact agrees_pure s₂ e
    · rw [operandOf_literal _ (hl t rfl), operandOf_literal _ (hl t' h)]
  · exact .inr ⟨_, refuses_operandOf expression hl, refuses_operandOf expression' hl⟩

include he in
theorem agrees_chain (min : Nat) (s : ParserState σ) :
    Agrees s (chain expression min) (chain expression' min) := by
  induction min using chain.induct generalizing s with
  | case1 min ih =>
    rw [chain, chain]
    refine (agrees_operand he s).bind fun first s₁ _ => ?_
    refine (agrees_many (ignoresPlace_tighter min) (fun op s₂ => ?_) s₁).bind fun rest s₃ _ => ?_
    · exact (ih op s₂).bind fun right s₃ _ => agrees_pure s₃ _
    · exact agrees_pure s₃ _

end Expressions

theorem agrees_expression (n : Nat) (s : ParserState σ) :
    Agrees s (expression n : Parser σ Expr) (expression n : Parser τ Expr) := by
  induction n generalizing s with
  | zero => exact agrees_tooDeep s
  | succ n ih => exact agrees_chain ih 0 s

/-! ### Statements -/

section Statements

variable {expression : Parser σ Expr} {expression' : Parser τ Expr}
  {body : Parser σ (List Statement)} {body' : Parser τ (List Statement)}
  (he : ∀ s : ParserState σ, Agrees s expression expression')
  (hb : ∀ s : ParserState σ, Agrees s body body')

def importOf (t : Token) : Parser σ Statement :=
  if t.kind = .stringLiteral then
    if importExtension.toList.isSuffixOf t.text.toList then do
      let _ ← skip? ";"
      return .importFile t.text
    else fail (.invalidImportPath t.text importExtension t.location)
  else unexpected .importPath t

theorem importStatement_eq :
    (importStatement : Parser σ Statement) = next >>= fun _ => next >>= importOf := rfl

theorem agrees_importStatement (s : ParserState σ) :
    Agrees s (importStatement : Parser σ Statement) (importStatement : Parser τ Statement) := by
  rw [importStatement_eq, importStatement_eq]
  refine agrees_look_bind looks_next looks_next fun _ s₁ _ => .inl ⟨?_, fun _ _ => rfl⟩
  refine agrees_look_bind looks_next looks_next fun t s₂ _ => ?_
  by_cases hk : t.kind = .stringLiteral
  · have hk' : ∀ t' : Token, t'.lexeme = t.lexeme → t'.kind = .stringLiteral := fun t' h =>
      (kind_eq_iff_of_lexeme h _).2 hk
    by_cases hx : importExtension.toList.isSuffixOf t.text.toList = true
    · refine .inl ⟨?_, fun t' h => ?_⟩
      · rw [importOf, importOf, if_pos hk, if_pos hx, if_pos hk, if_pos hx]
        exact (agrees_skip _ s₂).bind fun _ s₃ _ => agrees_pure s₃ _
      · rw [importOf, importOf, if_pos hk, if_pos (hk' t' h), text_eq_of_lexeme h]
        simp only [if_pos hx]
    · have hr : ∀ {ρ : Type} [TokenSource ρ],
          Refuses (next : Parser ρ Token) importOf .importPath t := by
        intro ρ _ t' u u' h _
        rw [importOf, if_pos (hk' t' h), if_neg (text_eq_of_lexeme h ▸ hx)]
        rfl
      exact .inr ⟨_, hr, hr⟩
  · have hr : ∀ {ρ : Type} [TokenSource ρ],
        Refuses (next : Parser ρ Token) importOf (.unexpected .importPath) t := by
      intro ρ _ t' u u' h _
      rw [importOf, if_neg (mt (kind_eq_iff_of_lexeme h _).1 hk)]
      rfl
    exact .inr ⟨_, hr, hr⟩

include hb in
theorem agrees_functionStatement (s : ParserState σ) :
    Agrees s (functionStatement body) (functionStatement body') := by
  refine agrees_look_bind looks_next looks_next fun _ s₁ _ => .inl ⟨?_, fun _ _ => rfl⟩
  refine (agrees_identifier _ s₁).bind fun name s₂ _ => ?_
  refine (agrees_separator _ _ s₂).bind fun _ s₃ _ => ?_
  refine (agrees_separator _ _ s₃).bind fun _ s₄ _ => ?_
  refine (agrees_separator _ _ s₄).bind fun _ s₅ _ => (hb s₅).bind fun statements s₆ _ => ?_
  exact (agrees_separator _ _ s₆).bind fun _ s₇ _ => agrees_pure s₇ _

theorem agrees_declaredType (s : ParserState σ) :
    Agrees s (declaredType : Parser σ String) (declaredType : Parser τ String) := by
  refine (agrees_skip _ s).bind fun typed s₁ _ => ?_
  split
  · exact agrees_identifier _ s₁
  · exact agrees_pure s₁ _

theorem ignoresPlace_operator (text : String) :
    IgnoresPlace fun t => if t.isOperator text then some () else none := by
  intro t t' h
  simp only [isOperator_eq_of_lexeme h]

include he in
theorem agrees_initialValue (s : ParserState σ) :
    Agrees s (initialValue expression) (initialValue expression') := by
  refine (agrees_accept (ignoresPlace_operator "=") s).bind fun assigned s₁ _ => ?_
  split
  · exact (he s₁).map some
  · exact agrees_pure s₁ none

include he in
theorem agrees_variableStatement (s : ParserState σ) :
    Agrees s (variableStatement expression) (variableStatement expression') := by
  rw [variableStatement_eq, variableStatement_eq]
  refine agrees_look_bind looks_next looks_next fun _ s₁ _ => .inl ⟨?_, fun _ _ => rfl⟩
  refine (agrees_identifier _ s₁).bind fun name s₂ _ => ?_
  refine (agrees_declaredType s₂).bind fun typeName s₃ _ => ?_
  refine (agrees_initialValue he s₃).bind fun init s₄ _ => ?_
  exact (agrees_skip _ s₄).bind fun _ s₅ _ => agrees_pure s₅ _

include he in
theorem agrees_expressionStatement (s : ParserState σ) :
    Agrees s (expressionStatement expression) (expressionStatement expression') :=
  (he s).bind fun _ s₁ _ => (agrees_skip _ s₁).bind fun _ s₂ _ => agrees_pure s₂ _

theorem beginsExpression_of_lexeme (h : t'.lexeme = t.lexeme) :
    beginsExpression t' = beginsExpression t := by
  obtain ⟨kind, text, place⟩ := t
  obtain ⟨kind', text', place'⟩ := t'
  obtain ⟨rfl, rfl⟩ : kind' = kind ∧ text' = text := by simpa [Token.lexeme] using h
  rfl

def statementOf (expression : Parser σ Expr) (body : Parser σ (List Statement)) (t : Token) :
    Parser σ Statement :=
  if t.kind = .keyword then
    if t.text = "import" then importStatement
    else if t.text = "fn" then functionStatement body
    else if t.text = "let" then variableStatement expression
    else fail (.reservedKeyword t.text t.location)
  else if beginsExpression t then expressionStatement expression
  else unexpected .statement t

theorem statement_eq (expression : Parser σ Expr) (body : Parser σ (List Statement)) :
    statement expression body = peek >>= statementOf expression body := rfl

theorem lexeme_eq_keyword {text : String} :
    t.lexeme = .keyword text ↔ t.kind = .keyword ∧ t.text = text := by
  simp [Token.lexeme, Lexeme.keyword]

theorem statementOf_import (e : Parser σ Expr) (b : Parser σ (List Statement))
    (hl : t.lexeme = .keyword "import") : statementOf e b t = importStatement := by
  obtain ⟨hk, ht⟩ := lexeme_eq_keyword.1 hl
  rw [statementOf, if_pos hk, if_pos ht]

theorem statementOf_function (e : Parser σ Expr) (b : Parser σ (List Statement))
    (hl : t.lexeme = .keyword "fn") : statementOf e b t = functionStatement b := by
  obtain ⟨hk, ht⟩ := lexeme_eq_keyword.1 hl
  rw [statementOf, if_pos hk, if_neg (by simp [ht]), if_pos ht]

theorem statementOf_variable (e : Parser σ Expr) (b : Parser σ (List Statement))
    (hl : t.lexeme = .keyword "let") : statementOf e b t = variableStatement e := by
  obtain ⟨hk, ht⟩ := lexeme_eq_keyword.1 hl
  rw [statementOf, if_pos hk, if_neg (by simp [ht]), if_neg (by simp [ht]), if_pos ht]

theorem statementOf_reserved (e : Parser σ Expr) (b : Parser σ (List Statement))
    (hk : t.kind = .keyword) (hi : t.lexeme ≠ .keyword "import") (hf : t.lexeme ≠ .keyword "fn")
    (hv : t.lexeme ≠ .keyword "let") :
    statementOf e b t = fail (Complaint.reserved.about t) := by
  have hne : ∀ {text}, t.lexeme ≠ .keyword text → t.text ≠ text := fun hl ht =>
    hl (lexeme_eq_keyword.2 ⟨hk, ht⟩)
  rw [statementOf, if_pos hk, if_neg (hne hi), if_neg (hne hf), if_neg (hne hv)]
  rfl

theorem statementOf_expression (e : Parser σ Expr) (b : Parser σ (List Statement))
    (hk : t.kind ≠ .keyword) (hx : beginsExpression t = true) :
    statementOf e b t = expressionStatement e := by
  rw [statementOf, if_neg hk, if_pos hx]

theorem statementOf_other (e : Parser σ Expr) (b : Parser σ (List Statement))
    (hk : t.kind ≠ .keyword) (hx : ¬ beginsExpression t = true) :
    statementOf e b t = unexpected .statement t := by
  rw [statementOf, if_neg hk, if_neg hx]

include he hb in
theorem agrees_statement (s : ParserState σ) :
    Agrees s (statement expression body) (statement expression' body') := by
  rw [statement_eq, statement_eq]
  refine agrees_look_bind looks_peek looks_peek fun t s₁ _ => ?_
  have hk' : ∀ {t' : Token}, t'.lexeme = t.lexeme → (t'.kind = .keyword ↔ t.kind = .keyword) :=
    fun h => kind_eq_iff_of_lexeme h _
  by_cases hi : t.lexeme = .keyword "import"
  · refine .inl ⟨?_, fun t' h => ?_⟩
    · rw [statementOf_import _ _ hi, statementOf_import _ _ hi]
      exact agrees_importStatement s₁
    · rw [statementOf_import _ _ hi, statementOf_import _ _ (h.trans hi)]
  by_cases hf : t.lexeme = .keyword "fn"
  · refine .inl ⟨?_, fun t' h => ?_⟩
    · rw [statementOf_function _ _ hf, statementOf_function _ _ hf]
      exact agrees_functionStatement hb s₁
    · rw [statementOf_function _ _ hf, statementOf_function _ _ (h.trans hf)]
  by_cases hv : t.lexeme = .keyword "let"
  · refine .inl ⟨?_, fun t' h => ?_⟩
    · rw [statementOf_variable _ _ hv, statementOf_variable _ _ hv]
      exact agrees_variableStatement he s₁
    · rw [statementOf_variable _ _ hv, statementOf_variable _ _ (h.trans hv)]
  by_cases hk : t.kind = .keyword
  · have hr : ∀ {ρ : Type} [TokenSource ρ] (e : Parser ρ Expr) (b : Parser ρ (List Statement)),
        Refuses peek (statementOf e b) .reserved t := by
      intro ρ _ e b t' u u' h _
      rw [statementOf_reserved e b ((hk' h).2 hk) (h ▸ hi) (h ▸ hf) (h ▸ hv)]
      rfl
    exact .inr ⟨_, hr _ _, hr _ _⟩
  by_cases hx : beginsExpression t = true
  · refine .inl ⟨?_, fun t' h => ?_⟩
    · rw [statementOf_expression _ _ hk hx, statementOf_expression _ _ hk hx]
      exact agrees_expressionStatement he s₁
    · rw [statementOf_expression _ _ hk hx, statementOf_expression _ _ (mt (hk' h).1 hk)
        ((beginsExpression_of_lexeme h).trans hx)]
  · have hr : ∀ {ρ : Type} [TokenSource ρ] (e : Parser ρ Expr) (b : Parser ρ (List Statement)),
        Refuses peek (statementOf e b) (.unexpected .statement) t := by
      intro ρ _ e b t' u u' h _
      rw [statementOf_other e b (mt (hk' h).1 hk) (beginsExpression_of_lexeme h ▸ hx)]
      rfl
    exact .inr ⟨_, hr _ _, hr _ _⟩

end Statements

theorem ignoresPlace_stop : IgnoresPlace fun t => t.isEof || t.isSeparator "\x7d" := by
  intro t t' h
  simp only [isEof_eq_of_lexeme h, isSeparator_eq_of_lexeme h]

theorem agrees_statements (n : Nat) (s : ParserState σ) :
    Agrees s (statements n : Parser σ (List Statement))
      (statements n : Parser τ (List Statement)) := by
  induction n generalizing s with
  | zero =>
    exact agrees_manyUntil ignoresPlace_stop
      (agrees_statement (agrees_expression 0) agrees_tooDeep) s
  | succ n ih =>
    exact agrees_manyUntil ignoresPlace_stop (agrees_statement (agrees_expression _) ih) s

theorem agrees_program (s : ParserState σ) :
    Agrees s (program : Parser σ Program) (program : Parser τ Program) := by
  refine (agrees_statements maxNesting s).bind fun ss s₁ _ => ?_
  refine agrees_look_ite looks_peek looks_peek (fun t t' h => ?_) (.unexpected .statement)
    fun t s₂ _ _ => ⟨agrees_pure s₂ (Program.mk ss), fun _ _ => rfl⟩
  rw [isEof_eq_of_lexeme h]

end FlatScript.Parser
