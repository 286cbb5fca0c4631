import Mathlib.Data.Prod.Lex
import FlatScript.Proofs.Procedure

namespace FlatScript

variable {σ : Type} [TokenSource σ] {α β : Type}

/-! ### Taken tokens -/

namespace ParserState

/-- The tokens `ts` are taken on the way from `s` to `s'`: they and those that wait in the end are
those that waited and those that the source has given. -/
def Takes (s : ParserState σ) (ts : List Token) (s' : ParserState σ) : Prop :=
  ∃ rs, Lookahead.Scans s.tokens.source rs s'.tokens.source ∧
    ts ++ s'.tokens.pending = s.tokens.pending ++ Lookahead.taken (rs.map (Lookahead.Call.next, ·))

theorem Takes.refl (s : ParserState σ) : s.Takes [] s := ⟨[], .nil _, by simp [Lookahead.taken]⟩

theorem Takes.trans {s s' s'' : ParserState σ} {ts us : List Token} (h : s.Takes ts s')
    (h' : s'.Takes us s'') : s.Takes (ts ++ us) s'' := by
  obtain ⟨rs, hr, ht⟩ := h
  obtain ⟨rs', hr', hu⟩ := h'
  refine ⟨rs ++ rs', hr.append hr', ?_⟩
  rw [List.append_assoc, hu, ← List.append_assoc, ht, List.map_append, Lookahead.taken_append,
    List.append_assoc]

end ParserState

namespace Parser

theorem takes_ofTokens (c : Lookahead.Call) (h : ∀ l : Lookahead σ, (l.call c).2.size ≤ l.size)
    (s : ParserState σ) :
    s.Takes (Lookahead.taken [(c, (s.tokens.call c).1)]) ((ofTokens (·.call c) h).run s).2 := by
  obtain ⟨ts, hs, ht⟩ := Lookahead.scans_call s.tokens c
  have hr : ((ofTokens (·.call c) h).run s).2.tokens = (s.tokens.call c).2 := by
    simp only [ofTokens]
    split
    next hc => rw [hc]
    next hc => rw [hc]
  refine ⟨_, hr ▸ hs, ?_⟩
  rw [hr, ht, Lookahead.taken_met]

theorem takes_next (s : ParserState σ) :
    s.Takes (Lookahead.taken [(.next, s.tokens.next.1)]) (next.run s).2 :=
  takes_ofTokens .next Lookahead.size_next_le s

theorem takes_of_next_eq_ok {s s' : ParserState σ} {t : Token} (h : next.run s = (.ok t, s')) :
    s.Takes [t] s' := by
  have ht := takes_next s
  rw [h, (run_next_eq_ok.1 h).1] at ht
  exact ht

theorem takes_of_next_eq_error {s s' : ParserState σ} {e : ParseError}
    (h : next.run s = (.error e, s')) : s.Takes [] s' := by
  have ht := takes_next s
  rcases hn : s.tokens.next with ⟨e' | t, l⟩
  · rw [h, hn] at ht
    exact ht
  · simp [next, ofTokens, hn] at h

def TakesNone (p : Parser σ α) : Prop := ∀ s : ParserState σ, s.Takes [] (p.run s).2

theorem takesNone_peek : (peek : Parser σ Token).TakesNone :=
  takes_ofTokens .peek Lookahead.size_peek_le

theorem takesNone_peek2 : (peek2 : Parser σ Token).TakesNone :=
  takes_ofTokens .peek2 Lookahead.size_peek2_le

theorem takesNone_fresh : (fresh : Parser σ NodeId).TakesNone := fun s => .refl s

theorem takesNone_fail (e : ParseError) : (fail e : Parser σ α).TakesNone := fun s => .refl s

theorem takesNone_ofExcept (r : Except ParseError α) : (ofExcept r : Parser σ α).TakesNone := by
  cases r with
  | ok a => exact fun s => .refl s
  | error e => exact fun s => .refl s

theorem takesNone_tooDeep : (tooDeep : Parser σ α).TakesNone := by
  intro s
  have hp := takesNone_peek s
  rw [tooDeep, run_bind]
  split
  next t s' h =>
    rw [h] at hp
    exact hp
  next e s' h =>
    rw [h] at hp
    exact hp

/-! ### Ranks -/

/-- A procedure calls lower ones only, unless a token has been taken. What works on a deeper level
is lower. -/
def Procedure.height : Procedure → Nat
  | .program => 8 * maxNesting + 8
  | .statements levels => 8 * levels + 7
  | .statement levels => 8 * levels + 6
  | .binary levels _ => 8 * levels + 5
  | .operand levels => 8 * levels + 4
  | .arguments levels => 8 * levels + 3
  | .expression levels => 8 * levels + 2
  | .operators levels _ _ => 8 * levels + 1

/-- How much is left to read, and the height of the procedure. -/
def Call.rank (k : Call σ) : Nat ×ₗ Nat := toLex (k.state.tokens.size, k.procedure.height)

theorem toLex_le {n n' h h' : Nat} (hn : n ≤ n') (hh : n < n' ∨ h ≤ h') :
    toLex (n, h) ≤ toLex (n', h') := by
  rw [Prod.Lex.toLex_le_toLex]
  dsimp only
  omega

/-! ### Outcomes -/

def Course.outcome : Course σ α → Except ParseError α × ParserState σ
  | .done r s => (r, s)
  | .take _ rest => rest.outcome
  | .call c s goesOn => (goesOn (c.parser.run s).1 (c.parser.run s).2).outcome

theorem Course.outcome_bind (x : Course σ α) (f : α → ParserState σ → Course σ β) :
    (x.bind f).outcome =
      match x.outcome with
      | (.ok a, s) => (f a s).outcome
      | (.error e, s) => (.error e, s) := by
  induction x with
  | done r s =>
    cases r with
    | ok a => rfl
    | error e => rfl
  | take t rest ih => exact ih
  | call c s goesOn ih => exact ih _ _

/-- All calls satisfy `P` if each does what the parser of the procedure does. -/
def Course.AllCalls (P : Call σ → Prop) : Course σ α → Prop
  | .done _ _ => True
  | .take _ rest => rest.AllCalls P
  | .call c s goesOn => P ⟨c, s⟩ ∧ (goesOn (c.parser.run s).1 (c.parser.run s).2).AllCalls P

theorem Course.AllCalls.bind {P : Call σ → Prop} {x : Course σ α}
    {f : α → ParserState σ → Course σ β} (hx : x.AllCalls P)
    (hf : ∀ a s, x.outcome = (.ok a, s) → (f a s).AllCalls P) : (x.bind f).AllCalls P := by
  induction x with
  | done r s =>
    cases r with
    | ok a => exact hf a s rfl
    | error e => trivial
  | take t rest ih => exact ih hx hf
  | call c s goesOn ih => exact ⟨hx.1, ih _ _ hx.2 hf⟩

theorem Course.AllCalls.mono {P Q : Call σ → Prop} {x : Course σ α} (hx : x.AllCalls P)
    (h : ∀ k, P k → Q k) : x.AllCalls Q := by
  induction x with
  | done r s => trivial
  | take t rest ih => exact ih hx
  | call c s goesOn ih => exact ⟨h _ hx.1, ih _ _ hx.2⟩

/-- If the tokens `ts` have been taken since the state `s`, and each call does what the parser of
the procedure does and takes some tokens, then the tokens taken until each call and until the end
are `ts`, those taken in calls and those that are listed. -/
def Course.Tracks (s : ParserState σ) (ts : List Token) : Course σ α → Prop
  | .done _ s' => s.Takes ts s'
  | .take t rest => rest.Tracks s (ts ++ [t])
  | .call c s' goesOn => s.Takes ts s' ∧ ∀ us, s'.Takes us (c.parser.run s').2 →
      (goesOn (c.parser.run s').1 (c.parser.run s').2).Tracks s (ts ++ us)

theorem Course.Tracks.bind {s : ParserState σ} {ts : List Token} {x : Course σ α}
    {f : α → ParserState σ → Course σ β} (hx : x.Tracks s ts)
    (hf : ∀ a s' us, x.outcome = (.ok a, s') → s.Takes us s' → (f a s').Tracks s us) :
    (x.bind f).Tracks s ts := by
  induction x generalizing ts with
  | done r s' =>
    cases r with
    | ok a => exact hf a s' ts rfl hx
    | error e => exact hx
  | take t rest ih => exact ih hx hf
  | call c s' goesOn ih => exact ⟨hx.1, fun us hu => ih _ _ (hx.2 us hu) hf⟩

theorem Course.Tracks.of_takes {s s' : ParserState σ} {ts us : List Token} {x : Course σ α}
    (hx : x.Tracks s' us) (h : s.Takes ts s') : x.Tracks s (ts ++ us) := by
  induction x generalizing us with
  | done r s' => exact h.trans hx
  | take t rest ih =>
    rw [Tracks, List.append_assoc]
    exact ih hx
  | call c s' goesOn ih =>
    refine ⟨h.trans hx.1, fun vs hv => ?_⟩
    rw [List.append_assoc]
    exact ih _ _ (hx.2 vs hv)

/-- If each call does what the parser of the procedure does, then the plan does what the parser `q`
does, each call ranks below the height `h` in front of the state, and the tokens that are taken are
those that are listed. -/
structure Plan.Realizes (p : Plan σ α) (q : Parser σ α) (h : Nat) : Prop where
  outcome : ∀ s, (p s).outcome = q.run s
  calls : ∀ s, (p s).AllCalls fun k => k.rank < toLex (s.tokens.size, h)
  tracks : ∀ s, (p s).Tracks s []

namespace Plan

variable {h : Nat}

theorem realizes_pure (a : α) : Realizes (pure a : Plan σ α) (pure a) h :=
  ⟨fun _ => rfl, fun _ => trivial, .refl⟩

theorem realizes_look {p : Parser σ α} (hp : p.TakesNone) : (look p).Realizes p h :=
  ⟨fun _ => rfl, fun _ => trivial, hp⟩

theorem realizes_fail (e : ParseError) : (look (fail e) : Plan σ α).Realizes (fail e) h :=
  realizes_look (takesNone_fail e)

theorem realizes_call {c : Procedure} (hc : c.height < h) :
    (call c : Plan σ c.Result).Realizes c.parser h :=
  ⟨fun _ => rfl, fun _ => ⟨Prod.Lex.toLex_lt_toLex.2 (.inr ⟨rfl, hc⟩), trivial⟩,
    fun s => ⟨.refl s, fun _ hu => hu⟩⟩

theorem realizes_next : (next : Plan σ Token).Realizes Parser.next h := by
  refine ⟨fun s => ?_, fun s => ?_, fun s => ?_⟩
  · rw [next]
    rcases Parser.next.run s with ⟨e | t, s'⟩
    · rfl
    · rfl
  · rw [next]
    rcases Parser.next.run s with ⟨e | t, s'⟩
    · trivial
    · trivial
  · rw [next]
    rcases hn : Parser.next.run s with ⟨e | t, s'⟩
    · exact takes_of_next_eq_error hn
    · exact takes_of_next_eq_ok hn

theorem Realizes.bind_of_lt {p : Plan σ α} {q : Parser σ α} {f : α → Plan σ β}
    {g : α → Parser σ β} (h' : α → Nat) (hp : p.Realizes q h)
    (hlt : ∀ s a s', q.run s = (.ok a, s') → s'.tokens.size < s.tokens.size ∨ h' a ≤ h)
    (hf : ∀ a, (f a).Realizes (g a) (h' a)) : (p >>= f).Realizes (q >>= g) h := by
  refine ⟨fun s => ?_, fun s => (hp.calls s).bind fun a s' hs => ?_, fun s =>
    (hp.tracks s).bind fun a s' us _ ht => ?_⟩
  · have hb : ((p >>= f) s).outcome = _ := (p s).outcome_bind f
    rw [hb, hp.outcome, run_bind]
    rcases q.run s with ⟨e | a, s'⟩
    · rfl
    · exact (hf a).outcome s'
  · rw [hp.outcome] at hs
    have hle := toLex_le (size_of_run hs) (hlt s a s' hs)
    exact ((hf a).calls s').mono fun k hk => hk.trans_le hle
  · have hx := ((hf a).tracks s').of_takes ht
    rwa [List.append_nil] at hx

theorem Realizes.bind {p : Plan σ α} {q : Parser σ α} {f : α → Plan σ β} {g : α → Parser σ β}
    (hp : p.Realizes q h) (hf : ∀ a, (f a).Realizes (g a) h) : (p >>= f).Realizes (q >>= g) h :=
  hp.bind_of_lt (fun _ => h) (fun _ _ _ _ => .inr (Nat.le_refl h)) hf

theorem Realizes.bind_of_consumes {p : Plan σ α} {q : Parser σ α} {f : α → Plan σ β}
    {g : α → Parser σ β} (h' : Nat) (hp : p.Realizes q h) (hq : q.Consumes)
    (hf : ∀ a, (f a).Realizes (g a) h') : (p >>= f).Realizes (q >>= g) h := by
  refine hp.bind_of_lt (fun _ => h') (fun s a s' hs => .inl ?_) hf
  have hlt := hq s a (by rw [hs])
  rwa [hs] at hlt

theorem Realizes.map {p : Plan σ α} {q : Parser σ α} (hp : p.Realizes q h) (f : α → β) :
    (f <$> p).Realizes (f <$> q) h :=
  hp.bind fun a => realizes_pure (f a)

theorem Realizes.ite {c : Prop} [Decidable c] {p p' : Plan σ α} {q q' : Parser σ α}
    (hp : p.Realizes q h) (hp' : p'.Realizes q' h) :
    (if c then p else p').Realizes (if c then q else q') h := by
  split
  · exact hp
  · exact hp'

theorem realizes_accept (pick : Token → Option α) :
    (accept? pick : Plan σ (Option α)).Realizes (Parser.accept? pick) h := by
  refine (realizes_look takesNone_peek).bind fun t => .ite (realizes_pure none) ?_
  cases pick t with
  | none => exact realizes_pure none
  | some a => exact realizes_next.bind fun _ => realizes_pure (some a)

theorem realizes_skip (text : String) :
    (skip? text : Plan σ Bool).Realizes (Parser.skip? text) h :=
  (realizes_accept _).bind fun found => realizes_pure found.isSome

theorem realizes_identifier (expected : Expectation) :
    (identifier expected : Plan σ String).Realizes (Parser.identifier expected) h :=
  realizes_next.bind fun t => .ite (realizes_pure t.text) (realizes_fail _)

theorem realizes_separator (text : String) (expected : Expectation) :
    (separator text expected : Plan σ Unit).Realizes (Parser.separator text expected) h :=
  realizes_next.bind fun _ => .ite (realizes_pure ()) (realizes_fail _)

section

variable (levels : Nat)

theorem realizes_arguments :
    (arguments levels : Plan σ (List Expr)).Realizes
      (Parser.arguments (Parser.expression levels)) (Procedure.operand levels).height := by
  have hc : (Procedure.arguments levels).height < (Procedure.operand levels).height :=
    Nat.lt_succ_self _
  rw [arguments_eq]
  refine (realizes_separator _ _).bind fun _ => (realizes_skip _).bind fun found => ?_
  exact .ite (realizes_pure []) (realizes_call hc)

theorem realizes_reference :
    (reference levels : Plan σ Expr).Realizes
      (Parser.reference (Parser.expression levels)) (Procedure.operand levels).height := by
  refine (realizes_look takesNone_peek2).bind fun after => ?_
  refine (realizes_identifier _).bind fun name => .ite ?_ ?_
  · refine (realizes_separator _ _).bind fun _ => (realizes_identifier _).bind fun function => ?_
    exact (realizes_arguments levels).bind fun es => realizes_pure _
  · refine (realizes_look takesNone_fresh).bind fun id => .ite ?_ (realizes_pure _)
    exact (realizes_arguments levels).bind fun es => realizes_pure _

theorem realizes_group :
    (group levels : Plan σ Expr).Realizes
      (Parser.group (Parser.expression levels)) (Procedure.operand levels).height := by
  have hc : (Procedure.expression levels).height < (Procedure.operand levels).height := by
    simp [Procedure.height]
  exact (realizes_separator _ _).bind fun _ => (realizes_call hc).bind fun e =>
    (realizes_separator _ _).bind fun _ => realizes_pure e

theorem realizes_operand :
    (operand levels : Plan σ Expr).Realizes
      (Parser.operand (Parser.expression levels)) (Procedure.operand levels).height := by
  refine (realizes_look takesNone_peek).bind fun t => .ite (realizes_reference levels) ?_
  refine .ite (realizes_group levels) ((realizes_accept literal?).bind fun found => ?_)
  cases found with
  | none => exact realizes_fail _
  | some r => exact realizes_look (takesNone_ofExcept r)

theorem realizes_importStatement :
    (importStatement : Plan σ Statement).Realizes Parser.importStatement h := by
  rw [importStatement_eq]
  refine realizes_next.bind fun _ => realizes_next.bind fun t => .ite (.ite ?_ ?_) (realizes_fail _)
  · exact (realizes_skip _).bind fun _ => realizes_pure _
  · exact realizes_fail _

theorem realizes_body :
    (body levels : Plan σ (List Statement)).Realizes (innerStatements levels)
      (Procedure.statement levels).height := by
  cases levels with
  | zero => exact realizes_look takesNone_tooDeep
  | succ levels =>
    have hc : (Procedure.statements levels).height < (Procedure.statement (levels + 1)).height := by
      simp only [Procedure.height]
      omega
    exact realizes_call hc

theorem realizes_functionStatement :
    (functionStatement levels : Plan σ Statement).Realizes
      (Parser.functionStatement (innerStatements levels)) (Procedure.statement levels).height :=
  realizes_next.bind fun _ => (realizes_identifier _).bind fun _ =>
    (realizes_separator _ _).bind fun _ => (realizes_separator _ _).bind fun _ =>
      (realizes_separator _ _).bind fun _ => (realizes_body levels).bind fun _ =>
        (realizes_separator _ _).bind fun _ => realizes_pure _

theorem realizes_declaredType : (declaredType : Plan σ String).Realizes Parser.declaredType h :=
  (realizes_skip _).bind fun _ => .ite (realizes_identifier _) (realizes_pure defaultTypeName)

theorem height_expression_lt :
    (Procedure.expression levels).height < (Procedure.statement levels).height := by
  simp [Procedure.height]

theorem realizes_initialValue :
    (initialValue levels : Plan σ (Option Expr)).Realizes
      (Parser.initialValue (Parser.expression levels)) (Procedure.statement levels).height := by
  refine (realizes_accept _).bind fun _ => .ite ?_ (realizes_pure none)
  exact (realizes_call (height_expression_lt levels)).map some

theorem realizes_variableStatement :
    (variableStatement levels : Plan σ Statement).Realizes
      (Parser.variableStatement (Parser.expression levels))
      (Procedure.statement levels).height := by
  rw [variableStatement_eq]
  refine realizes_next.bind fun _ => (realizes_identifier _).bind fun name => ?_
  refine realizes_declaredType.bind fun typeName => ?_
  refine (realizes_initialValue levels).bind fun init => ?_
  exact (realizes_skip _).bind fun _ => realizes_pure _

theorem realizes_expressionStatement :
    (expressionStatement levels : Plan σ Statement).Realizes
      (Parser.expressionStatement (Parser.expression levels))
      (Procedure.statement levels).height :=
  (realizes_call (height_expression_lt levels)).bind fun _ => (realizes_skip _).bind fun _ =>
    realizes_pure _

theorem realizes_statement :
    (statement levels : Plan σ Statement).Realizes
      (Parser.statement (Parser.expression levels) (innerStatements levels))
      (Procedure.statement levels).height := by
  refine (realizes_look takesNone_peek).bind fun t => .ite ?_ (.ite ?_ ?_)
  · refine .ite ?_ (.ite ?_ (.ite ?_ ?_))
    · exact realizes_importStatement
    · exact realizes_functionStatement levels
    · exact realizes_variableStatement levels
    · exact realizes_fail _
  · exact realizes_expressionStatement levels
  · exact realizes_fail _

end

/-! ### Rounds -/

theorem realizes_statements (levels : Nat) :
    ((Procedure.statements levels).plan : Plan σ _).Realizes (Parser.statements levels)
      (Procedure.statements levels).height := by
  -- Behind the statement of a round, which has taken a token, comes the next round.
  rw [statements_eq_round]
  refine (realizes_look takesNone_peek).bind fun t => .ite (realizes_pure []) ?_
  have hs : (Parser.statement (Parser.expression levels) (innerStatements levels) :
      Parser σ Statement).Consumes := statement_consumes (expression_consumes levels) _
  refine (realizes_call (c := .statement levels) (Nat.lt_succ_self _)).bind_of_consumes
    ((Procedure.statements levels).height + 1) hs fun s => ?_
  exact (realizes_call (c := .statements levels) (Nat.lt_succ_self _)).bind fun ss =>
    realizes_pure (s :: ss)

theorem realizes_operators (levels min : Nat) (left : Expr) :
    ((Procedure.operators levels min left).plan : Plan σ _).Realizes
      (Parser.operators (Parser.expression levels) min left)
      (Procedure.operators levels min left).height := by
  rw [operators_eq]
  let h' := fun found : Option { op : Operator // min < op.precedence } =>
    if found.isSome then (Procedure.binary levels min).height + 1
    else (Procedure.operators levels min left).height
  refine (realizes_accept (tighter? min)).bind_of_lt h' (fun s found s' hr => ?_) fun found => ?_
  · cases found with
    | none => exact .inr (Nat.le_refl _)
    | some op => exact .inl (size_accept_lt hr)
  · cases found with
    | none => exact realizes_pure left
    | some op =>
      refine (realizes_call (c := .binary levels op.val.precedence) (Nat.lt_succ_self _)).bind
        fun right => ?_
      refine realizes_call (c := .operators levels min (.binary op left right)) ?_
      simp [Procedure.height]

theorem realizes_argumentsGoingOn (levels : Nat) :
    ((Procedure.arguments levels).plan : Plan σ _).Realizes
      (argumentsGoingOn (Parser.expression levels)) (Procedure.arguments levels).height := by
  rw [argumentsGoingOn_eq]
  refine (realizes_call (c := .expression levels) (Nat.lt_succ_self _)).bind_of_consumes
    ((Procedure.arguments levels).height + 1) (expression_consumes levels) fun e => ?_
  refine realizes_next.bind fun t => .ite (realizes_pure [e]) (.ite ?_ (realizes_fail _))
  exact (realizes_call (c := .arguments levels) (Nat.lt_succ_self _)).bind fun es =>
    realizes_pure (e :: es)

end Plan

/-- Each procedure does what its parser does, if what it calls does, and that ranks below it. -/
theorem Procedure.realizes_plan (c : Procedure) :
    (c.plan : Plan σ c.Result).Realizes c.parser c.height := by
  cases c with
  | program =>
    have hc : (Procedure.statements maxNesting).height < Procedure.program.height :=
      Nat.lt_succ_self _
    refine (Plan.realizes_call (σ := σ) hc).bind fun statements => ?_
    refine (Plan.realizes_look takesNone_peek).bind fun t => .ite ?_ (Plan.realizes_fail _)
    exact Plan.realizes_pure (σ := σ) (Program.mk statements)
  | statements levels => exact Plan.realizes_statements levels
  | statement levels => exact Plan.realizes_statement levels
  | expression levels =>
    cases levels with
    | zero => exact Plan.realizes_look takesNone_tooDeep
    | succ levels =>
      refine Plan.realizes_call (c := .binary levels 0) ?_
      simp only [height]
      omega
  | binary levels min =>
    rw [parser, chain_eq]
    refine (Plan.realizes_call (c := .operand levels) (Nat.lt_succ_self _)).bind fun first => ?_
    refine Plan.realizes_call (c := .operators levels min first) ?_
    simp [height]
  | operators levels min left => exact Plan.realizes_operators levels min left
  | operand levels => exact Plan.realizes_operand levels
  | arguments levels => exact Plan.realizes_argumentsGoingOn levels

end Parser

end FlatScript
