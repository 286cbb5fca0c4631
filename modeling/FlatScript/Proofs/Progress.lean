import FlatScript.Interpreter
import FlatScript.Proofs.Descent

namespace FlatScript

/-- What is left of a script: the characters that have not been scanned, and the tokens that wait,
the end of input apart. -/
def ParserState.left (s : ParserState Script) : Nat :=
  s.tokens.source.cursor.rest.length + s.tokens.pending.countP (!·.isEof)

namespace Parser

variable {σ : Type} [TokenSource σ] {α β : Type} {s s' : ParserState σ} {ts : List Token}
  {r : Except ParseError α}

/-! ### Returning -/

def Call.Returns (k : Call σ) : Prop :=
  ∃ ts, (k.procedure.plan k.state).Returns ts (k.procedure.parser.run k.state).1
    (k.procedure.parser.run k.state).2

namespace Course

variable {x : Course σ α} {P : Call σ → Prop}

theorem Returns.outcome_eq (h : x.Returns ts r s) : x.outcome = (r, s) := by
  induction h with
  | done => rfl
  | take _ ih => exact ih
  | call _ _ ihc ih =>
    rw [(Procedure.realizes_plan _).outcome] at ihc
    rw [outcome, ihc]
    exact ih

theorem Returns.run_eq {c : Procedure} {r : Except ParseError c.Result}
    (h : (c.plan s).Returns ts r s') : c.parser.run s = (r, s') := by
  rw [← c.realizes_plan.outcome]
  exact h.outcome_eq

theorem Returns.takes {us : List Token} (h : x.Returns us r s') (hx : x.Tracks s ts) :
    s.Takes (ts ++ us) s' := by
  induction h generalizing s ts with
  | done r s' =>
    rw [List.append_nil]
    exact hx
  | take _ ih =>
    have ht := ih hx
    rwa [List.append_assoc] at ht
  | call hc _ ihc ih =>
    have hx := hx.2
    rw [hc.run_eq] at hx
    have ht := ih (hx _ (ihc ((Procedure.realizes_plan _).tracks _)))
    rwa [List.nil_append, List.append_assoc] at ht

theorem exists_returns_outcome (hx : x.AllCalls Call.Returns) :
    ∃ ts, x.Returns ts x.outcome.1 x.outcome.2 := by
  induction x with
  | done r s => exact ⟨[], .done r s⟩
  | take t rest ih =>
    obtain ⟨ts, h⟩ := ih hx
    exact ⟨t :: ts, .take h⟩
  | call c s goesOn ih =>
    obtain ⟨⟨ts, hc⟩, hx⟩ := hx
    obtain ⟨us, h⟩ := ih _ _ hx
    exact ⟨ts ++ us, .call hc h⟩

theorem AllCalls.of_makes (hx : x.AllCalls P) {k : Call σ} (hk : x.Makes k) : P k := by
  induction hk with
  | here goesOn => exact hx.1
  | take _ ih => exact ih hx
  | behind hc _ ih =>
    have hx := hx.2
    rw [hc.run_eq] at hx
    exact ih hx

end Course

theorem Call.returns (k : Call σ) : k.Returns := by
  -- By induction on the rank.
  induction hn : k.rank using WellFoundedLT.induction generalizing k with
  | ind n ih =>
    subst hn
    obtain ⟨c, s⟩ := k
    have hp := c.realizes_plan (σ := σ)
    rw [Call.Returns, ← hp.outcome]
    exact Course.exists_returns_outcome ((hp.calls s).mono fun k hk => ih _ hk k rfl)

theorem Plan.Realizes.returns_iff {p : Plan σ α} {q : Parser σ α} {h : Nat} (hp : p.Realizes q h) :
    (∃ ts, (p s).Returns ts r s') ↔ q.run s = (r, s') := by
  rw [← hp.outcome]
  constructor
  · rintro ⟨ts, hr⟩
    exact hr.outcome_eq
  · intro hr
    have hx := (hp.calls s).mono fun k _ => k.returns
    obtain ⟨ts, hx⟩ := Course.exists_returns_outcome hx
    rw [hr] at hx
    exact ⟨ts, hx⟩

theorem Plan.Realizes.size_lt_of_returns {p : Plan σ α} {q : Parser σ α} {h : Nat}
    (hp : p.Realizes q h) (hq : q.Consumes) {a : α} (hr : (p s).Returns ts (.ok a) s') :
    s'.tokens.size < s.tokens.size := by
  have hr := hp.returns_iff.1 ⟨ts, hr⟩
  have hs := hq s a (congrArg Prod.fst hr)
  rwa [hr] at hs

/-! ### Taking tokens -/

theorem Course.Returns.of_bind {x : Course σ α} {f : α → ParserState σ → Course σ β} {b : β}
    (h : (x.bind f).Returns ts (.ok b) s') :
    ∃ us vs a s₁, x.Returns us (.ok a) s₁ ∧ (f a s₁).Returns vs (.ok b) s' ∧ ts = us ++ vs := by
  induction x generalizing ts with
  | done r s =>
    cases r with
    | ok a => exact ⟨[], ts, a, s, .done _ s, h, rfl⟩
    | error e => cases h
  | take t rest ih =>
    cases h with
    | take h =>
      obtain ⟨us, vs, a, s₁, hx, hf, rfl⟩ := ih h
      exact ⟨t :: us, vs, a, s₁, .take hx, hf, rfl⟩
  | call c s goesOn ih =>
    cases h with
    | call hc h =>
      obtain ⟨us, vs, a, s₁, hx, hf, rfl⟩ := ih _ _ h
      exact ⟨_, vs, a, s₁, .call hc hx, hf, (List.append_assoc _ _ _).symm⟩

/-- When it succeeds, it has taken a token that is not the end of input. -/
def Plan.TakesToken (p : Plan σ α) : Prop :=
  ∀ s ts a s', (p s).Returns ts (.ok a) s' → ∃ t ∈ ts, t.isEof = false

namespace Plan

theorem TakesToken.bind_left {p : Plan σ α} (hp : p.TakesToken) (f : α → Plan σ β) :
    (p >>= f).TakesToken := by
  intro s ts b s' h
  obtain ⟨us, vs, a, s₁, hx, -, rfl⟩ := Course.Returns.of_bind h
  obtain ⟨t, ht, he⟩ := hp s us a s₁ hx
  exact ⟨t, List.mem_append_left vs ht, he⟩

theorem TakesToken.bind_right (p : Plan σ α) {f : α → Plan σ β} (hf : ∀ a, (f a).TakesToken) :
    (p >>= f).TakesToken := by
  intro s ts b s' h
  obtain ⟨us, vs, a, s₁, -, hx, rfl⟩ := Course.Returns.of_bind h
  obtain ⟨t, ht, he⟩ := hf a s₁ vs b s' hx
  exact ⟨t, List.mem_append_right us ht, he⟩

theorem TakesToken.ite {c : Prop} [Decidable c] {p q : Plan σ α} (hp : p.TakesToken)
    (hq : q.TakesToken) : (if c then p else q).TakesToken := by
  split
  · exact hp
  · exact hq

theorem takesToken_look {p : Parser σ α} (hp : ∀ s a s', p.run s ≠ (.ok a, s')) :
    (look p).TakesToken :=
  fun s _ a s' h => absurd h.outcome_eq (hp s a s')

theorem takesToken_unexpected (expected : Expectation) (t : Token) :
    (look (unexpected expected t) : Plan σ α).TakesToken :=
  takesToken_look fun _ _ _ => run_fail_ne_ok

theorem takesToken_call {c : Procedure} (h : (c.plan : Plan σ c.Result).TakesToken) :
    (call c : Plan σ c.Result).TakesToken := by
  intro s ts a s' hr
  cases hr with
  | call hc hr =>
    cases hr with
    | done =>
      rw [List.append_nil]
      exact h _ _ _ _ hc

theorem returns_look {p : Parser σ α} {a : α} (h : (look p s).Returns ts (.ok a) s') :
    ts = [] ∧ p.run s = (.ok a, s') := by
  have hr := h.outcome_eq
  rw [look] at h
  generalize (p.run s).1 = r at h
  cases h
  exact ⟨rfl, hr⟩

theorem returns_next {t : Token} (h : (next s).Returns ts (.ok t) s') :
    ts = [t] ∧ Parser.next.run s = (.ok t, s') := by
  rw [next] at h
  split at h
  next u s₁ hn =>
    cases h with
    | take h =>
      cases h with
      | done => exact ⟨rfl, hn⟩
  next => cases h

theorem takesToken_next_bind {f : Token → Plan σ β}
    (hf : ∀ t, t.isEof = true → (f t).TakesToken) : (next >>= f).TakesToken := by
  intro s ts b s' h
  obtain ⟨us, vs, t, s₁, hx, hr, rfl⟩ := Course.Returns.of_bind h
  obtain ⟨rfl, -⟩ := returns_next hx
  cases he : t.isEof with
  | true =>
    obtain ⟨u, hu, he⟩ := hf t he s₁ vs b s' hr
    exact ⟨u, List.mem_append_right [t] hu, he⟩
  | false => exact ⟨t, List.mem_append_left vs (List.mem_singleton_self t), he⟩

theorem returns_accept_some {pick : Token → Option α} {a : α}
    (h : (accept? pick s).Returns ts (.ok (some a)) s') : ∃ t, ts = [t] ∧ t.isEof = false := by
  obtain ⟨us, vs, t, s₁, hp, ha, rfl⟩ := Course.Returns.of_bind h
  cases he : t.isEof with
  | true =>
    rw [he] at ha
    nomatch ha
  | false =>
    rw [he] at ha
    cases hpick : pick t with
    | none =>
      rw [hpick] at ha
      nomatch ha
    | some b =>
      rw [hpick] at ha
      obtain ⟨ws, xs, u, s₂, hu, hd, rfl⟩ := Course.Returns.of_bind ha
      obtain ⟨rfl, hn⟩ := returns_next hu
      obtain ⟨rfl, ht⟩ := returns_look hp
      obtain rfl := next_of_peek ht hn
      cases hd
      exact ⟨t, rfl, he⟩

theorem takesToken_accept_bind {γ : Type} {pick : Token → Option γ} {f : Option γ → Plan σ β}
    (hf : (f none).TakesToken) : (accept? pick >>= f).TakesToken := by
  intro s ts b s' h
  obtain ⟨us, vs, found, s₁, hx, hr, rfl⟩ := Course.Returns.of_bind h
  cases found with
  | none =>
    obtain ⟨u, hu, he⟩ := hf s₁ vs b s' hr
    exact ⟨u, List.mem_append_right us hu, he⟩
  | some a =>
    obtain ⟨t, rfl, he⟩ := returns_accept_some hx
    exact ⟨t, List.mem_append_left vs (List.mem_singleton_self t), he⟩

theorem takesToken_identifier (expected : Expectation) :
    (identifier expected : Plan σ String).TakesToken := by
  refine takesToken_next_bind fun t he => ?_
  have hk : t.kind = .eof := eq_of_beq he
  rw [if_neg (by simp [hk])]
  exact takesToken_unexpected _ _

theorem takesToken_separator (text : String) (expected : Expectation) :
    (separator text expected : Plan σ Unit).TakesToken := by
  refine takesToken_next_bind fun t he => ?_
  have hk : t.kind = .eof := eq_of_beq he
  rw [if_neg (by simp [Token.isSeparator, hk])]
  exact takesToken_unexpected _ _

section

variable (levels : Nat)

theorem takesToken_operand : (operand levels : Plan σ Expr).TakesToken := by
  refine .bind_right _ fun t => .ite ?_ (.ite ?_ ?_)
  · exact .bind_right _ fun _ => .bind_left (takesToken_identifier _) _
  · exact .bind_left (takesToken_separator _ _) _
  · exact takesToken_accept_bind (takesToken_unexpected _ _)

theorem takesToken_expression :
    ((Procedure.expression levels).plan : Plan σ Expr).TakesToken := by
  cases levels with
  | zero => exact takesToken_look fun _ _ _ => run_tooDeep_ne_ok
  | succ levels =>
    have ho : ((Procedure.operand levels).plan : Plan σ Expr).TakesToken :=
      takesToken_operand levels
    have hb : ((Procedure.binary levels 0).plan : Plan σ Expr).TakesToken :=
      .bind_left (takesToken_call ho) _
    exact takesToken_call hb

theorem takesToken_statement : (statement levels : Plan σ Statement).TakesToken := by
  refine .bind_right _ fun t => .ite (.ite ?_ (.ite ?_ (.ite ?_ ?_))) (.ite ?_ ?_)
  · refine .bind_right _ fun _ => takesToken_next_bind fun t he => ?_
    have hk : t.kind = .eof := eq_of_beq he
    rw [if_neg (by simp [hk])]
    exact takesToken_unexpected _ _
  · exact .bind_right _ fun _ => .bind_left (takesToken_identifier _) _
  · exact .bind_right _ fun _ => .bind_left (takesToken_identifier _) _
  · exact takesToken_look fun _ _ _ => run_fail_ne_ok
  · exact .bind_left (takesToken_call (takesToken_expression levels)) _
  · exact takesToken_unexpected _ _

end

end Plan

/-! ### The operators -/

theorem Plan.allCalls_accept (pick : Token → Option α) (s : ParserState σ) (P : Call σ → Prop) :
    (accept? pick s).AllCalls P := by
  refine Course.AllCalls.bind (x := look peek s) trivial fun t s₁ _ => ?_
  cases t.isEof with
  | true => trivial
  | false =>
    cases pick t with
    | none => trivial
    | some a =>
      refine Course.AllCalls.bind (x := next s₁) ?_ fun _ s₂ _ => trivial
      rw [next]
      split
      · trivial
      · trivial

/-- The call is made right behind the operator `op`, which has been taken. -/
def Call.IsBehind (k : Call σ) (op : Operator) (s : ParserState σ) : Prop :=
  ∃ t s₁, peek.run s = (.ok t, s₁) ∧ next.run s₁ = (.ok t, k.state) ∧ t.lexeme = .operator op

theorem allCalls_binary (levels min : Nat) (s : ParserState σ) :
    ((Procedure.binary levels min).plan s).AllCalls fun k =>
      k.procedure = .operand levels ∨ ∃ first, k.procedure = .operators levels min first :=
  ⟨.inl rfl, Course.AllCalls.bind (x := .done _ _) trivial fun first _ _ =>
    ⟨.inr ⟨first, rfl⟩, trivial⟩⟩

theorem allCalls_operators (levels min : Nat) (left : Expr) (s : ParserState σ) :
    ((Procedure.operators levels min left).plan s).AllCalls fun k =>
      (∃ op : Operator, k.procedure = .binary levels op.precedence ∧ min < op.precedence ∧
        k.IsBehind op s) ∨
      ∃ e, k.procedure = .operators levels min e ∧ k.state.tokens.size < s.tokens.size := by
  refine Course.AllCalls.bind (x := Plan.accept? (tighter? min) s) (Plan.allCalls_accept _ s _)
    fun found s₁ ha => ?_
  rw [(Plan.realizes_accept (h := 0) _).outcome] at ha
  cases found with
  | none => trivial
  | some op =>
    refine ⟨.inl ⟨op, rfl, op.property, ?_⟩, ?_⟩
    · obtain ⟨t, s₂, hp, -, ht, hn⟩ := run_accept_eq_some.1 ha
      exact ⟨t, s₂, hp, hn, tighter_eq_some.1 ht⟩
    · refine Course.AllCalls.bind (x := .done _ _) trivial fun right s₂ hr => ?_
      refine ⟨.inr ⟨_, rfl, ?_⟩, trivial⟩
      exact Nat.lt_of_le_of_lt (size_of_run hr) (size_accept_lt ha)

end Parser

/-! ### Sessions -/

open FlatScript.Parser

variable {σ : Type} [TokenSource σ]

/-- How a demand is answered, call by call. -/
def Demand.plan : Demand → Plan σ Tree
  | .program => .program <$> Plan.call .program
  | .expression => .expression <$> Plan.call (.expression maxNesting)

/-- From the state `s` on, demands are made one after the other of the same parser, also behind
errors; each returns, with the reply that is listed for it. -/
inductive Session : ParserState σ → List Demand → List Reply → Prop
  | nil (s : ParserState σ) : Session s [] []
  | cons {d : Demand} {ds : List Demand} {s s' : ParserState σ} {ts : List Token}
      {r : Except ParseError Tree} {rs : List Reply} (h : (d.plan s).Returns ts r s')
      (hs : Session s' ds rs) : Session s (d :: ds) (⟨s.nextId, r⟩ :: rs)

theorem Demand.realizes_plan (d : Demand) :
    (d.plan : Plan σ Tree).Realizes d.parser (Procedure.program.height + 1) := by
  cases d with
  | program => exact (Plan.realizes_call (c := .program) (Nat.lt_succ_self _)).map Tree.program
  | expression =>
    have hc : (Procedure.expression maxNesting).height < Procedure.program.height + 1 := by
      simp [Procedure.height]
    exact (Plan.realizes_call hc).map Tree.expression

theorem session_iff {s : ParserState σ} {ds : List Demand} {rs : List Reply} :
    Session s ds rs ↔ rs = s.replies ds := by
  induction ds generalizing s rs with
  | nil =>
    constructor
    · rintro ⟨⟩
      rfl
    · rintro rfl
      exact .nil s
  | cons d ds ih =>
    constructor
    · intro h
      cases h with
      | cons h hs =>
        have hr := d.realizes_plan.returns_iff.1 ⟨_, h⟩
        rw [ParserState.replies, hr, ih.1 hs]
    · rintro rfl
      obtain ⟨ts, h⟩ := d.realizes_plan.returns_iff.2 (Prod.eta (d.parser.run s)).symm
      exact .cons h (ih.2 rfl)

/-- What the procedures do from a state of a script. Each returns, in what its parser does, and has
taken the tokens that are listed; each call that it makes ranks below it. A statement, an expression
and arguments leave less when they succeed, and the first two take a token that is not the end of
input. From one round of a loop to the next there is less left. Behind an operator its right side is
read with the precedence of the operator, which is greater than the one that the operator had to
exceed. -/
structure ParserState.Progresses (s : ParserState Script) : Prop where
  returns : ∀ (c : Procedure) r s',
    (∃ ts, (c.plan s).Returns ts r s') ↔ c.parser.run s = (r, s')
  takes : ∀ (c : Procedure) ts r s', (c.plan s).Returns ts r s' → s.Takes ts s'
  calls : ∀ (c : Procedure) k, (c.plan s).Makes k → k.rank < (Call.mk c s).rank
  statement : ∀ n ts a s', ((Procedure.statement n).plan s).Returns ts (.ok a) s' →
    (∃ t ∈ ts, t.isEof = false) ∧ s'.left < s.left
  expression : ∀ n ts e s', ((Procedure.expression n).plan s).Returns ts (.ok e) s' →
    (∃ t ∈ ts, t.isEof = false) ∧ s'.left < s.left
  arguments : ∀ n ts es s', ((Procedure.arguments n).plan s).Returns ts (.ok es) s' →
    s'.left < s.left
  statementsRound : ∀ n s', ((Procedure.statements n).plan s).Makes ⟨.statements n, s'⟩ →
    s'.left < s.left
  argumentsRound : ∀ n s', ((Procedure.arguments n).plan s).Makes ⟨.arguments n, s'⟩ →
    s'.left < s.left
  binary : ∀ n min k, ((Procedure.binary n min).plan s).Makes k →
    k.procedure = .operand n ∨ ∃ first, k.procedure = .operators n min first
  operatorsRound : ∀ n min left k, ((Procedure.operators n min left).plan s).Makes k →
    (∃ op : Operator, k.procedure = .binary n op.precedence ∧ min < op.precedence ∧
      op.precedence ≤ 13 ∧ k.IsBehind op s) ∨
    ∃ e, k.procedure = .operators n min e ∧ k.state.left < s.left

theorem ParserState.left_lt_of_makes {c c' : Procedure} {s s' : ParserState Script}
    (h : (c.plan s).Makes ⟨c', s'⟩) (hc : c'.height = c.height) : s'.left < s.left := by
  rcases Prod.Lex.toLex_lt_toLex.1 ((c.realizes_plan.calls s).of_makes h) with h | ⟨-, h⟩
  · exact h
  · exact absurd hc (Nat.ne_of_lt h)

theorem ParserState.progresses (s : ParserState Script) : s.Progresses where
  returns c r s' := c.realizes_plan.returns_iff
  takes c ts r s' h := h.takes (c.realizes_plan.tracks s)
  calls c k hk := (c.realizes_plan.calls s).of_makes hk
  statement n ts a s' h := by
    have hp := (Procedure.statement n).realizes_plan (σ := Script)
    have hc := statement_consumes (σ := Script) (expression_consumes n) (innerStatements n)
    exact ⟨Plan.takesToken_statement n s ts a s' h, hp.size_lt_of_returns hc h⟩
  expression n ts e s' h := by
    have hp := (Procedure.expression n).realizes_plan (σ := Script)
    have hc := expression_consumes (σ := Script) n
    exact ⟨Plan.takesToken_expression n s ts e s' h, hp.size_lt_of_returns hc h⟩
  arguments n ts es s' h := by
    have hp := (Procedure.arguments n).realizes_plan (σ := Script)
    exact hp.size_lt_of_returns (.bind_left (expression_consumes n) _) h
  statementsRound n s' hk := left_lt_of_makes hk rfl
  argumentsRound n s' hk := left_lt_of_makes hk rfl
  binary n min k hk := (allCalls_binary n min s).of_makes hk
  operatorsRound n min left k hk := by
    rcases (allCalls_operators n min left s).of_makes hk with ⟨op, hc, hlt, hb⟩ | h
    · exact .inl ⟨op, hc, hlt, op.precedence_le, hb⟩
    · exact .inr h

/-- A parser of any text replies to whatever it is asked for, one demand after the other, also
behind errors, and it makes progress from every state. -/
theorem parsing_progresses (text : String) (ds : List Demand) :
    (∀ rs, Session (.ofString text) ds rs ↔ rs = (ParserState.ofString text).replies ds) ∧
      ∀ s : ParserState Script, s.Progresses :=
  ⟨fun _ => session_iff, fun s => s.progresses⟩

def ParserState.ofPending (ts : List Token) : ParserState Script :=
  { tokens := { source := .ofString "", pending := ts } }

def sumTokens : List Token := [⟨.operator, "+", ⟨1, 3⟩⟩, ⟨.identifier, "b", ⟨1, 5⟩⟩]

theorem parsing_progresses_sum :
    (∃ rs, Session (.ofString "a + b )") [.expression, .program] rs) ∧ ∃ op,
      Call.IsBehind ⟨.binary 127 12, .ofPending sumTokens.tail⟩ op (.ofPending sumTokens) := by
  obtain ⟨hs, hp⟩ := parsing_progresses "a + b )" [.expression, .program]
  have hk : ((Procedure.operators 127 0 (.variable 0 "a")).plan (.ofPending sumTokens)).Makes
      ⟨.binary 127 12, .ofPending sumTokens.tail⟩ := .take (.here _)
  refine ⟨⟨_, (hs _).2 rfl⟩, ?_⟩
  rcases (hp _).operatorsRound 127 0 _ _ hk with ⟨op, -, -, -, hb⟩ | ⟨e, he, -⟩
  · exact ⟨op, hb⟩
  · nomatch he

end FlatScript
