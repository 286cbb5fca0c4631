import FlatScript.Proofs.Numeral
import FlatScript.Proofs.Rendering
import FlatScript.Proofs.Run
import FlatScript.Proofs.Stream

namespace FlatScript

variable {σ : Type} [TokenSource σ] {α β γ : Type}

/-- The lexemes that are still to be read, the end of input being the last of them. -/
def ParserState.Shows (s : ParserState σ) (ls : List Lexeme) : Prop :=
  ∃ ts : List Token, ts.map Token.lexeme = ls ∧ s.tokens.Yields ts

namespace Parser

/-- In front of the lexemes `ls`, with `id` as the next number, `p` ends in the result `a`, in front
of the lexemes `rs` and with `id'` as the next number. -/
def Takes (p : Parser σ α) (ls : List Lexeme) (id : NodeId) (a : α) (rs : List Lexeme)
    (id' : NodeId) : Prop :=
  ∀ s, s.Shows ls → s.nextId = id → ∃ s', p.run s = (.ok a, s') ∧ s'.Shows rs ∧ s'.nextId = id'

variable {p : Parser σ α} {f : α → Parser σ β} {a : α} {b : β} {l : Lexeme}
  {ls rs us : List Lexeme} {id id' id'' : NodeId}

theorem Takes.bind (h : p.Takes ls id a rs id') (hf : (f a).Takes rs id' b us id'') :
    (p >>= f).Takes ls id b us id'' := by
  intro s hs hid
  obtain ⟨s', hp, hs', hid'⟩ := h s hs hid
  obtain ⟨s'', hq, hs'', hid''⟩ := hf s' hs' hid'
  exact ⟨s'', run_bind_eq_ok.2 ⟨a, s', hp, hq⟩, hs'', hid''⟩

theorem takes_pure (a : α) (ls : List Lexeme) (id : NodeId) :
    (pure a : Parser σ α).Takes ls id a ls id :=
  fun s hs hid => ⟨s, rfl, hs, hid⟩

theorem takes_fresh (ls : List Lexeme) (id : NodeId) :
    (fresh : Parser σ NodeId).Takes ls id id ls (id + 1) := by
  rintro s hs rfl
  exact ⟨{ s with nextId := s.nextId + 1 }, rfl, hs, rfl⟩

theorem Takes.map (g : α → β) (h : p.Takes ls id a rs id') :
    (g <$> p).Takes ls id (g a) rs id' := by
  intro s hs hid
  obtain ⟨s', hp, hs', hid'⟩ := h s hs hid
  exact ⟨s', run_map_eq_ok.2 ⟨a, hp, rfl⟩, hs', hid'⟩

theorem run_peek_of_shows {s : ParserState σ} (h : s.Shows (l :: ls)) :
    ∃ t s', t.lexeme = l ∧ peek.run s = (.ok t, s') ∧ s'.Shows (l :: ls) ∧ s'.nextId = s.nextId := by
  obtain ⟨ts, hts, hy⟩ := h
  obtain ⟨t, us, rfl⟩ := hy.exists_eq_cons
  obtain ⟨rfl, rfl⟩ : t.lexeme = l ∧ us.map Token.lexeme = ls := by simpa using hts
  obtain ⟨l', hp, hy'⟩ := Lookahead.peek_of_yields hy
  exact ⟨t, ⟨l', s.nextId⟩, rfl, run_peek_eq_ok.2 ⟨hp, rfl⟩, ⟨_, hts, hy'⟩, rfl⟩

theorem run_peek2_of_shows {s : ParserState σ} {r : Lexeme} (h : s.Shows (l :: r :: ls)) :
    ∃ t s', t.lexeme = r ∧ peek2.run s = (.ok t, s') ∧ s'.Shows (l :: r :: ls) ∧
      s'.nextId = s.nextId := by
  obtain ⟨ts, hts, hy⟩ := h
  match ts, hts, hy with
  | t :: u :: us, hts, hy =>
    obtain ⟨-, rfl, -⟩ : t.lexeme = l ∧ u.lexeme = r ∧ us.map Token.lexeme = ls := by
      simpa using hts
    obtain ⟨l', hp, hy'⟩ := Lookahead.peek2_of_yields hy
    exact ⟨u, ⟨l', s.nextId⟩, rfl, run_peek2_eq_ok.2 ⟨hp, rfl⟩, ⟨_, hts, hy'⟩, rfl⟩

theorem run_next_of_shows {s : ParserState σ} (h : s.Shows (l :: ls)) (hl : l.kind ≠ .eof) :
    ∃ t s', t.lexeme = l ∧ next.run s = (.ok t, s') ∧ s'.Shows ls ∧ s'.nextId = s.nextId := by
  obtain ⟨ts, hts, hy⟩ := h
  obtain ⟨t, us, rfl⟩ := hy.exists_eq_cons
  obtain ⟨rfl, rfl⟩ : t.lexeme = l ∧ us.map Token.lexeme = ls := by simpa using hts
  cases hy with
  | eof hn he => exact absurd (by simpa [Token.isEof, Token.lexeme] using he) hl
  | @token _ l' _ _ hn he hr =>
    exact ⟨t, ⟨l', s.nextId⟩, rfl, run_next_eq_ok.2 ⟨hn, rfl⟩, ⟨us, rfl, hr⟩, rfl⟩

theorem takes_peek_bind {f : Token → Parser σ β}
    (hf : ∀ t, t.lexeme = l → (f t).Takes (l :: ls) id b us id') :
    (peek >>= f).Takes (l :: ls) id b us id' := by
  intro s hs hid
  obtain ⟨t, s', ht, hp, hs', hid'⟩ := run_peek_of_shows hs
  obtain ⟨s'', hq, hr⟩ := hf t ht s' hs' (hid'.trans hid)
  exact ⟨s'', run_bind_eq_ok.2 ⟨t, s', hp, hq⟩, hr⟩

theorem takes_peek2_bind {f : Token → Parser σ β} {r : Lexeme}
    (hf : ∀ t, t.lexeme = r → (f t).Takes (l :: r :: ls) id b us id') :
    (peek2 >>= f).Takes (l :: r :: ls) id b us id' := by
  intro s hs hid
  obtain ⟨t, s', ht, hp, hs', hid'⟩ := run_peek2_of_shows hs
  obtain ⟨s'', hq, hr⟩ := hf t ht s' hs' (hid'.trans hid)
  exact ⟨s'', run_bind_eq_ok.2 ⟨t, s', hp, hq⟩, hr⟩

theorem takes_next_bind {f : Token → Parser σ β} (hl : l.kind ≠ .eof)
    (hf : ∀ t, t.lexeme = l → (f t).Takes ls id b us id') :
    (next >>= f).Takes (l :: ls) id b us id' := by
  intro s hs hid
  obtain ⟨t, s', ht, hp, hs', hid'⟩ := run_next_of_shows hs hl
  obtain ⟨s'', hq, hr⟩ := hf t ht s' hs' (hid'.trans hid)
  exact ⟨s'', run_bind_eq_ok.2 ⟨t, s', hp, hq⟩, hr⟩

theorem takes_accept_some {pick : Token → Option α} (hl : l.kind ≠ .eof)
    (h : ∀ t, t.lexeme = l → pick t = some a) :
    (accept? pick : Parser σ _).Takes (l :: ls) id (some a) ls id := by
  intro s hs hid
  obtain ⟨t, s₁, ht, hp, hs₁, hid₁⟩ := run_peek_of_shows hs
  obtain ⟨u, s₂, hu, hn, hs₂, hid₂⟩ := run_next_of_shows hs₁ hl
  obtain rfl := next_of_peek hp hn
  have he : t.isEof = false := by
    rw [← ht] at hl
    simpa [Token.isEof, Token.lexeme] using hl
  exact ⟨s₂, run_accept_eq_some.2 ⟨t, s₁, hp, he, h t ht, hn⟩, hs₂,
    hid₂.trans (hid₁.trans hid)⟩

theorem takes_accept_none {pick : Token → Option α} (h : ∀ t, t.lexeme = l → pick t = none) :
    (accept? pick : Parser σ _).Takes (l :: ls) id none (l :: ls) id := by
  intro s hs hid
  obtain ⟨t, s₁, ht, hp, hs₁, hid₁⟩ := run_peek_of_shows hs
  exact ⟨s₁, run_accept_eq_none.2 ⟨t, hp, .inr (h t ht)⟩, hs₁, hid₁.trans hid⟩

theorem takes_many_nil {pick : Token → Option γ} {g : γ → Parser σ α}
    (h : (accept? pick : Parser σ _).Takes ls id none rs id') :
    (many pick g).Takes ls id [] rs id' := by
  intro s hs hid
  obtain ⟨s', hp, hr⟩ := h s hs hid
  exact ⟨s', run_many_eq_ok.2 (.done hp), hr⟩

theorem takes_many_cons {pick : Token → Option γ} {g : γ → Parser σ α} {c : γ} {as : List α}
    {vs ws : List Lexeme} {i j : NodeId}
    (h : (accept? pick : Parser σ _).Takes ls id (some c) vs i) (hp : (g c).Takes vs i a ws j)
    (hm : (many pick g).Takes ws j as rs id') : (many pick g).Takes ls id (a :: as) rs id' := by
  intro s hs hid
  obtain ⟨s₁, h₁, hs₁, hid₁⟩ := h s hs hid
  obtain ⟨s₂, h₂, hs₂, hid₂⟩ := hp s₁ hs₁ hid₁
  obtain ⟨s₃, h₃, hr⟩ := hm s₂ hs₂ hid₂
  exact ⟨s₃, run_many_eq_ok.2 (.round h₁ h₂ (run_many_eq_ok.1 h₃)), hr⟩

theorem takes_manyUntil_nil {stop : Token → Bool} {hc : p.Consumes}
    (h : ∀ t, t.lexeme = l → stop t = true) :
    (manyUntil stop p hc).Takes (l :: ls) id [] (l :: ls) id := by
  intro s hs hid
  obtain ⟨t, s₁, ht, hp, hs₁, hid₁⟩ := run_peek_of_shows hs
  exact ⟨s₁, run_manyUntil_eq_ok.2 (.done hp (h t ht)), hs₁, hid₁.trans hid⟩

theorem takes_manyUntil_cons {stop : Token → Bool} {hc : p.Consumes} {as : List α}
    (h : ∀ t, t.lexeme = l → stop t = false) (hp : p.Takes (l :: ls) id a rs id')
    (hm : (manyUntil stop p hc).Takes rs id' as us id'') :
    (manyUntil stop p hc).Takes (l :: ls) id (a :: as) us id'' := by
  intro s hs hid
  obtain ⟨t, s₁, ht, h₁, hs₁, hid₁⟩ := run_peek_of_shows hs
  obtain ⟨s₂, h₂, hs₂, hid₂⟩ := hp s₁ hs₁ (hid₁.trans hid)
  obtain ⟨s₃, h₃, hr⟩ := hm s₂ hs₂ hid₂
  exact ⟨s₃, run_manyUntil_eq_ok.2 (.round h₁ (h t ht) h₂ (run_manyUntil_eq_ok.1 h₃)), hr⟩

/-! ### Tokens -/

theorem isSeparator_eq_false {t : Token} {text : String} (h : t.lexeme ≠ .separator text) :
    t.isSeparator text = false := by
  rw [Bool.eq_false_iff]
  intro hs
  exact h (isSeparator_iff.1 hs)

theorem takes_identifier (expected : Expectation) (name : String) (ls : List Lexeme)
    (id : NodeId) :
    (identifier expected : Parser σ _).Takes (.identifier name :: ls) id name ls id := by
  refine takes_next_bind (by simp [Lexeme.identifier]) fun t ht => ?_
  obtain ⟨hk, rfl⟩ : t.kind = .identifier ∧ t.text = name := by
    simpa [Token.lexeme, Lexeme.identifier] using ht
  rw [if_pos hk]
  exact takes_pure _ _ _

theorem takes_separator (text : String) (expected : Expectation) (ls : List Lexeme)
    (id : NodeId) :
    (separator text expected : Parser σ _).Takes (.separator text :: ls) id () ls id := by
  refine takes_next_bind (by simp [Lexeme.separator]) fun t ht => ?_
  rw [if_pos (isSeparator_iff.2 ht)]
  exact takes_pure _ _ _

theorem takes_skip_true (text : String) (ls : List Lexeme) (id : NodeId) :
    (skip? text : Parser σ _).Takes (.separator text :: ls) id true ls id := by
  refine Takes.bind (a := some ()) (takes_accept_some (by simp [Lexeme.separator]) fun t ht => ?_)
    (takes_pure _ _ _)
  simp [isSeparator_iff.2 ht]

theorem takes_skip_false {text : String} (h : l ≠ .separator text) (ls : List Lexeme)
    (id : NodeId) : (skip? text : Parser σ _).Takes (l :: ls) id false (l :: ls) id := by
  refine Takes.bind (a := none) (takes_accept_none fun t ht => ?_) (takes_pure _ _ _)
  simp [isSeparator_eq_false (ht ▸ h)]

theorem literal_of_writes {t : Token} {e : Expr} (h : l.Writes e) (ht : t.lexeme = l) :
    literal? t = some (.ok e) := by
  subst ht
  obtain ⟨kind, text, place⟩ := t
  simp only [Token.lexeme] at h
  cases h with
  | string => rfl
  | integer hn => simp [literal?, readInt64_toDigits hn]
  | decimal _ hd => simp [literal?, hd]
  | boolean b =>
    cases b with
    | false => rfl
    | true => rfl
  | null => rfl

theorem kind_of_writes {e : Expr} (h : l.Writes e) :
    l.kind ≠ .identifier ∧ l.kind ≠ .separator ∧ l.kind ≠ .eof := by
  cases h
  all_goals simp [Lexeme.string]

theorem numbered_of_writes {e : Expr} (h : l.Writes e) (id : NodeId) : e.numbered id = e := by
  cases h
  all_goals rfl

theorem mentions_of_writes {e : Expr} (h : l.Writes e) : e.mentions = [] := by
  cases h
  all_goals rfl

/-! ### Expressions -/

/-- An expression, all of whose operators bind tighter than `min`, ends in front of such a lexeme. -/
def Ends (min : Nat) (l : Lexeme) : Prop :=
  l ≠ .separator "(" ∧ l ≠ .separator "::" ∧ ∀ op, l = .operator op → op.precedence ≤ min

theorem Ends.mono {min max : Nat} (h : Ends min l) (hm : min ≤ max) : Ends max l :=
  ⟨h.1, h.2.1, fun op hop => Nat.le_trans (h.2.2 op hop) hm⟩

theorem Ends.maxPrecedence {min : Nat} (h : Ends min l) : Ends Operator.maxPrecedence l :=
  ⟨h.1, h.2.1, fun op _ => op.precedence_le⟩

theorem ends_separator {text : String} (ho : text ≠ "(") (hc : text ≠ "::") (min : Nat) :
    Ends min (.separator text) := by
  refine ⟨by simpa [Lexeme.separator] using ho, by simpa [Lexeme.separator] using hc, ?_⟩
  intro op hop
  simp [Lexeme.separator, Lexeme.operator] at hop

theorem ends_operator {op : Operator} {min : Nat} (h : op.precedence ≤ min) :
    Ends min (.operator op) := by
  refine ⟨by simp [Lexeme.separator, Lexeme.operator], by simp [Lexeme.separator, Lexeme.operator],
    fun op' hop => ?_⟩
  have hs : op.symbol = op'.symbol := by simpa [Lexeme.operator] using hop
  have ho := Operator.ofSymbol_symbol op
  rw [hs, Operator.ofSymbol_symbol, Option.some.injEq] at ho
  rwa [ho]

theorem tighter_eq_none {min : Nat} {t : Token} (h : Ends min t.lexeme) : tighter? min t = none := by
  rw [Option.eq_none_iff_forall_ne_some]
  rintro ⟨op, hop⟩ ht
  have := h.2.2 op (tighter_eq_some.1 ht)
  omega

def Starts (l : Lexeme) : Prop :=
  l.kind ∈ [Token.Kind.identifier, .stringLiteral, .integerLiteral, .decimalLiteral, .nullLiteral,
    .booleanLiteral] ∨ l = .separator "("

theorem exists_starts : ∀ {n min : Nat} {e : Expr} {ls : List Lexeme}, e.Renders n min ls →
    ∃ l rs, ls = l :: rs ∧ Starts l
  | _, _, _, _, .literal h => ⟨_, [], rfl, .inl (by cases h <;> simp [Lexeme.string])⟩
  | _, _, _, _, .name _ => ⟨_, [], rfl, .inl (by simp [Lexeme.identifier])⟩
  | _, _, _, _, .call _ _ => ⟨_, _, rfl, .inl (by simp [Lexeme.identifier])⟩
  | _, _, _, _, .externalCall _ _ _ => ⟨_, _, rfl, .inl (by simp [Lexeme.identifier])⟩
  | _, _, _, _, .group _ => ⟨_, _, rfl, .inr rfl⟩
  | _, _, _, _, .binary _ hl _ => by
    obtain ⟨l, rs, rfl, h⟩ := exists_starts hl
    exact ⟨l, _, rfl, h⟩

theorem exists_starts_arguments {n : Nat} {e : Expr} {es : List Expr} {ls : List Lexeme}
    (h : Expr.RendersArguments n (e :: es) ls) : ∃ l rs, ls = l :: rs ∧ Starts l := by
  cases h with
  | single h => exact exists_starts h
  | cons h _ =>
    obtain ⟨l, rs, rfl, hl⟩ := exists_starts h
    exact ⟨l, _, rfl, hl⟩

theorem Starts.ne_separator {l : Lexeme} (h : Starts l) {text : String} (ht : text ≠ "(") :
    l ≠ .separator text := by
  rintro rfl
  rcases h with h | h
  · simp [Lexeme.separator] at h
  · simp [Lexeme.separator, ht] at h

theorem exists_ends {n min bound : Nat} {rest : List (Operator × Expr)} {rs : List Lexeme}
    (h : Expr.RendersChain n min bound rest rs) {l : Lexeme} (hl : Ends bound l)
    (us : List Lexeme) : ∃ r ws, rs ++ l :: us = r :: ws ∧ Ends bound r := by
  cases h with
  | nil => exact ⟨l, us, rfl, hl⟩
  | @cons _ op _ _ fs ws _ hb => exact ⟨.operator op, fs ++ ws ++ l :: us, rfl, ends_operator hb⟩

/-- The parser of the level below the `n` levels that may be open takes what is written there. -/
def TakesInner (p : Parser σ Expr) (n : Nat) : Prop :=
  ∀ (m : Nat) (e : Expr) (ls : List Lexeme), n = m + 1 → e.Renders m 0 ls → ∀ l rs id, Ends 0 l →
    p.Takes (ls ++ l :: rs) id (e.numbered id) (l :: rs) (id + e.mentions.length)

section Expressions

variable {expression : Parser σ Expr} {n : Nat} (he : TakesInner expression n)

include he

theorem takes_argumentList {es : List Expr} : ∀ {e : Expr} {ls : List Lexeme},
    Expr.RendersArguments n (e :: es) ls → ∀ us id, ∃ ws,
      expression.Takes (ls ++ .separator ")" :: us) id (e.numbered id) ws
        (id + e.mentions.length) ∧
      (many (fun t => if t.isSeparator "," then some () else none) fun _ => expression).Takes ws
        (id + e.mentions.length) (Expr.numberedAll (id + e.mentions.length) es)
        (.separator ")" :: us) (id + e.mentions.length + (Expr.mentionsAll es).length) := by
  induction es with
  | nil =>
    intro e ls h us id
    cases h with
    | single h =>
      refine ⟨_, he _ e ls rfl h _ us id (ends_separator (by decide) (by decide) 0), ?_⟩
      refine takes_many_nil (takes_accept_none fun t ht => ?_)
      have hs : t.lexeme ≠ .separator "," := by simp [ht, Lexeme.separator]
      simp [isSeparator_eq_false hs]
  | cons e' es ih =>
    intro e ls h us id
    cases h with
    | @cons m _ _ _ fs rs h hs =>
      obtain ⟨ws, hf, hm⟩ := ih hs us (id + e.mentions.length)
      refine ⟨.separator "," :: (rs ++ .separator ")" :: us), ?_, ?_⟩
      · simpa using he m e fs rfl h _ _ id (ends_separator (by decide) (by decide) 0)
      · refine takes_many_cons (c := ()) (takes_accept_some (by simp [Lexeme.separator])
          fun t ht => by simp [isSeparator_iff.2 ht]) hf ?_
        simpa [Expr.mentionsAll, Nat.add_assoc] using hm

theorem takes_arguments {es : List Expr} {ls : List Lexeme} (h : Expr.RendersArguments n es ls)
    (us : List Lexeme) (id : NodeId) :
    (arguments expression).Takes (.separator "(" :: ls ++ .separator ")" :: us) id
      (Expr.numberedAll id es) us (id + (Expr.mentionsAll es).length) := by
  refine Takes.bind (takes_separator _ _ _ _) ?_
  cases es with
  | nil =>
    cases h with
    | nil => exact Takes.bind (takes_skip_true _ _ _) (takes_pure _ _ _)
  | cons e es =>
    obtain ⟨ws, hf, hm⟩ := takes_argumentList he h us id
    obtain ⟨l, rs, rfl, hl⟩ := exists_starts_arguments h
    refine Takes.bind (takes_skip_false (hl.ne_separator (by decide)) _ _) ?_
    refine Takes.bind hf (Takes.bind hm (Takes.bind (takes_separator _ _ _ _) ?_))
    rw [Expr.numberedAll, Expr.mentionsAll, List.length_append, ← Nat.add_assoc]
    exact takes_pure _ _ _

theorem takes_reference_call {name : String} {es : List Expr} {ls : List Lexeme}
    (h : Expr.RendersArguments n es ls) (i : NodeId) (us : List Lexeme) (id : NodeId) :
    (reference expression).Takes
      (.identifier name :: .separator "(" :: ls ++ .separator ")" :: us) id
      ((Expr.call i name es).numbered id) us (id + (Expr.call i name es).mentions.length) := by
  refine takes_peek2_bind fun t ht => Takes.bind (takes_identifier _ _ _ _) ?_
  have hc : t.lexeme ≠ .separator "::" := by simp [ht, Lexeme.separator]
  rw [isSeparator_eq_false hc, isSeparator_iff.2 ht, if_neg Bool.false_ne_true]
  refine Takes.bind (takes_fresh _ _) ?_
  rw [if_pos rfl]
  refine Takes.bind (takes_arguments he h us (id + 1)) ?_
  have hid : id + (Expr.call i name es).mentions.length =
      id + 1 + (Expr.mentionsAll es).length := by
    rw [Expr.mentions, List.length_cons]
    exact (Nat.add_right_comm id 1 _).symm
  rw [hid]
  exact takes_pure _ _ _

theorem takes_reference_externalCall {module function : String} {es : List Expr}
    {ls : List Lexeme} (h : Expr.RendersArguments n es ls) (us : List Lexeme) (id : NodeId) :
    (reference expression).Takes
      (.identifier module :: .separator "::" :: .identifier function :: .separator "(" :: ls ++
        .separator ")" :: us) id ((Expr.externalCall module function es).numbered id) us
      (id + (Expr.externalCall module function es).mentions.length) := by
  refine takes_peek2_bind fun t ht => Takes.bind (takes_identifier _ _ _ _) ?_
  rw [isSeparator_iff.2 ht, if_pos rfl]
  refine Takes.bind (takes_separator _ _ _ _) (Takes.bind (takes_identifier _ _ _ _) ?_)
  refine Takes.bind (takes_arguments he h us id) ?_
  rw [Expr.numbered, Expr.mentions]
  exact takes_pure _ _ _

omit he in
theorem takes_reference_name {name : String} {l : Lexeme} (hl : Ends Operator.maxPrecedence l)
    (i : NodeId) (us : List Lexeme) (id : NodeId) :
    (reference expression).Takes (.identifier name :: l :: us) id
      ((Expr.variable i name).numbered id) (l :: us)
      (id + (Expr.variable i name).mentions.length) := by
  refine takes_peek2_bind fun t ht => Takes.bind (takes_identifier _ _ _ _) ?_
  rw [isSeparator_eq_false (ht ▸ hl.2.1), isSeparator_eq_false (ht ▸ hl.1),
    if_neg Bool.false_ne_true]
  refine Takes.bind (takes_fresh _ _) ?_
  rw [if_neg Bool.false_ne_true]
  exact takes_pure _ _ _

theorem takes_group {m : Nat} {e : Expr} {ls : List Lexeme} (hn : n = m + 1)
    (h : e.Renders m 0 ls) (us : List Lexeme) (id : NodeId) :
    (group expression).Takes (.separator "(" :: ls ++ .separator ")" :: us) id (e.numbered id) us
      (id + e.mentions.length) := by
  have hl : Ends 0 (.separator ")") := ends_separator (by decide) (by decide) 0
  refine Takes.bind (takes_separator _ _ _ _) (Takes.bind (he m e ls hn h _ us id hl) ?_)
  exact Takes.bind (takes_separator _ _ _ _) (takes_pure _ _ _)

omit he in
theorem takes_operand_literal {e : Expr} (h : l.Writes e) (us : List Lexeme) (id : NodeId) :
    (operand expression).Takes (l :: us) id e us id := by
  obtain ⟨hi, hs, he⟩ := kind_of_writes h
  refine takes_peek_bind fun t ht => ?_
  have hk : t.kind ≠ .identifier := by
    rw [← ht] at hi
    exact hi
  have hp : t.lexeme ≠ .separator "(" := by
    rintro hp
    rw [← ht, hp] at hs
    exact hs rfl
  rw [if_neg hk, isSeparator_eq_false hp, if_neg Bool.false_ne_true]
  refine Takes.bind (a := some (.ok e)) (takes_accept_some he fun u hu => ?_) (takes_pure _ _ _)
  exact literal_of_writes h hu

omit he in
theorem takes_operand_reference {name : String} {e : Expr}
    (h : (reference expression).Takes (.identifier name :: ls) id e us id') :
    (operand expression).Takes (.identifier name :: ls) id e us id' := by
  refine takes_peek_bind fun t ht => ?_
  have hk : t.kind = .identifier := congrArg Lexeme.kind ht
  rw [if_pos hk]
  exact h

omit he in
theorem takes_operand_group {e : Expr}
    (h : (group expression).Takes (.separator "(" :: ls) id e us id') :
    (operand expression).Takes (.separator "(" :: ls) id e us id' := by
  refine takes_peek_bind fun t ht => ?_
  have hk : t.kind = .separator := congrArg Lexeme.kind ht
  rw [if_neg (by simp [hk]), if_pos (isSeparator_iff.2 ht)]
  exact h

theorem takes_operand {e : Expr} {ls : List Lexeme}
    (h : e.Renders n (Operator.maxPrecedence + 1) ls) {l : Lexeme}
    (hl : Ends Operator.maxPrecedence l) (us : List Lexeme) (id : NodeId) :
    (operand expression).Takes (ls ++ l :: us) id (e.numbered id) (l :: us)
      (id + e.mentions.length) := by
  cases h with
  | literal h =>
    rw [numbered_of_writes h, mentions_of_writes h]
    exact takes_operand_literal h _ _
  | @name _ _ i _ h => exact takes_operand_reference (takes_reference_name hl i us id)
  | @call _ _ i _ _ _ h ha =>
    refine takes_operand_reference ?_
    simpa using takes_reference_call he ha i (l :: us) id
  | externalCall hm hf ha =>
    refine takes_operand_reference ?_
    simpa using takes_reference_externalCall he ha (l :: us) id
  | @binary _ _ op _ _ _ _ h =>
    have := op.precedence_le
    omega
  | group h =>
    refine takes_operand_group ?_
    simpa using takes_group he rfl h (l :: us) id

/-- In front of a lexeme that ends it, each expression is taken whose operators bind tighter than
`min`. -/
def TakesChain (expression : Parser σ Expr) (n min : Nat) : Prop :=
  ∀ (e : Expr) (ls : List Lexeme), e.Renders n (min + 1) ls → ∀ l us id, Ends min l →
    (chain expression min).Takes (ls ++ l :: us) id (e.numbered id) (l :: us)
      (id + e.mentions.length)

omit he in
theorem takes_chainRest {min bound : Nat} {rest : List (Operator × Expr)} {rs : List Lexeme}
    (ih : ∀ op : { op : Operator // min < op.precedence },
      TakesChain expression n op.val.precedence)
    (h : Expr.RendersChain n (min + 1) bound rest rs) {l : Lexeme} (hl : Ends min l)
    (us : List Lexeme) (id : NodeId) :
    (many (tighter? min) fun op => do return (op.val, ← chain expression op.val.precedence)).Takes
      (rs ++ l :: us) id (Expr.numberedRest id rest) (l :: us)
      (id + (rest.flatMap (·.2.mentions)).length) := by
  induction h generalizing id with
  | nil => exact takes_many_nil (takes_accept_none fun t ht => tighter_eq_none (ht ▸ hl))
  | @cons _ op right rest rs ws hm _ hr hs ihr =>
    obtain ⟨r, vs, hv, hb⟩ := exists_ends hs (hl.mono (Nat.le_of_lt hm)) us
    have hc := ih ⟨op, hm⟩ right rs hr r vs id hb
    have hrest := ihr (id + right.mentions.length)
    rw [hv] at hrest
    have hp : (accept? (tighter? min) : Parser σ _).Takes (.operator op :: (rs ++ r :: vs)) id
        (some ⟨op, hm⟩) (rs ++ r :: vs) id :=
      takes_accept_some (by simp [Lexeme.operator]) fun t ht => tighter_eq_some.2 ht
    have h := takes_many_cons hp (Takes.bind hc (takes_pure (op, right.numbered id) _ _)) hrest
    simpa [Expr.numberedRest, hv, Nat.add_assoc] using h

theorem takes_chain (min : Nat) : TakesChain expression n min := by
  induction min using chain.induct with
  | case1 min ih =>
    intro e ls h l us id hl
    obtain ⟨first, rest, fs, rs, rfl, rfl, hf, hr⟩ := h.exists_chain
    obtain ⟨r, ws, hw, hb⟩ := exists_ends hr hl.maxPrecedence us
    have ho := takes_operand he hf hb ws id
    have hm := takes_chainRest ih hr hl us (id + first.mentions.length)
    rw [← hw] at ho
    rw [chain, List.append_assoc, Expr.numbered_chained, Expr.mentions_chained, List.length_append,
      ← Nat.add_assoc]
    exact Takes.bind ho (Takes.bind hm (takes_pure _ _ _))

end Expressions

theorem takesInner_expression (n : Nat) : TakesInner (expression n : Parser σ Expr) n := by
  induction n with
  | zero =>
    intro m e ls h
    omega
  | succ n ih =>
    intro m e ls hm h l us id hl
    obtain rfl : n = m := Nat.succ.inj hm
    exact takes_chain ih 0 e ls h.of_zero l us id hl

/-! ### Statements -/

section Statements

variable {expression : Parser σ Expr} {body : Parser σ (List Statement)} {n : Nat}

theorem takes_importStatement {path : String} (hx : importExtension.toList <:+ path.toList)
    (us : List Lexeme) (id : NodeId) :
    (importStatement : Parser σ _).Takes
      (.keyword "import" :: .string path :: .separator ";" :: us) id (.importFile path) us id := by
  refine takes_next_bind (by simp [Lexeme.keyword]) fun _ _ => ?_
  refine takes_next_bind (by simp [Lexeme.string]) fun t ht => ?_
  obtain ⟨hk, rfl⟩ : t.kind = .stringLiteral ∧ t.text = path := by
    simpa [Token.lexeme, Lexeme.string] using ht
  rw [if_pos hk, if_pos (List.isSuffixOf_iff_suffix.2 hx)]
  exact Takes.bind (takes_skip_true _ _ _) (takes_pure _ _ _)

theorem takes_functionStatement {name : String} {ss : List Statement}
    {ls us : List Lexeme} {id id' : NodeId}
    (hb : body.Takes (ls ++ .separator "\x7d" :: us) id ss (.separator "\x7d" :: us) id') :
    (functionStatement body).Takes
      (.keyword "fn" :: .identifier name :: .separator "(" :: .separator ")" ::
        .separator "\x7b" :: ls ++ .separator "\x7d" :: us) id (.function name ss) us id' := by
  refine takes_next_bind (by simp [Lexeme.keyword]) fun _ _ => ?_
  refine Takes.bind (takes_identifier _ _ _ _) (Takes.bind (takes_separator _ _ _ _) ?_)
  refine Takes.bind (takes_separator _ _ _ _) (Takes.bind (takes_separator _ _ _ _) ?_)
  exact Takes.bind hb (Takes.bind (takes_separator _ _ _ _) (takes_pure _ _ _))

theorem takes_declaredType {typeName : String} {ts : List Lexeme} (h : RendersType typeName ts)
    {l : Lexeme} (hl : l ≠ .separator "::") (us : List Lexeme) (id : NodeId) :
    (declaredType : Parser σ _).Takes (ts ++ l :: us) id typeName (l :: us) id := by
  cases h with
  | default => exact Takes.bind (takes_skip_false hl _ _) (takes_pure _ _ _)
  | written h => exact Takes.bind (takes_skip_true _ _ _) (takes_identifier _ _ _ _)

theorem takes_initialValue (he : TakesInner expression n) {init : Option Expr} {is : List Lexeme}
    (h : RendersInit n init is) (us : List Lexeme) (id : NodeId) :
    (initialValue expression).Takes (is ++ .separator ";" :: us) id (init.map (·.numbered id))
      (.separator ";" :: us) (id + (init.elim [] Expr.mentions).length) := by
  cases h with
  | none =>
    refine Takes.bind (a := none) (takes_accept_none fun t ht => ?_) (takes_pure _ _ _)
    have hs : ¬ t.isOperator "=" = true := by
      intro ho
      have ho : t.lexeme = .operator .assign := isOperator_iff.1 ho
      simp [ho, Lexeme.operator, Lexeme.separator] at ht
    rw [if_neg hs]
  | @some m e ls h =>
    have hs : Ends 0 (.separator ";") := ends_separator (by decide) (by decide) 0
    have ha : (accept? fun t => if t.isOperator "=" then some () else none : Parser σ _).Takes
        (.operator .assign :: (ls ++ .separator ";" :: us)) id (some ())
        (ls ++ .separator ";" :: us) id := by
      refine takes_accept_some (by simp [Lexeme.operator]) fun t ht => ?_
      have ht : t.isOperator "=" = true := isOperator_iff.2 ht
      rw [ht, if_pos rfl]
    exact Takes.bind ha (Takes.map some (he m e ls rfl h _ us id hs))

theorem takes_variableStatement (he : TakesInner expression n) {name typeName : String}
    {init : Option Expr} {ts is : List Lexeme} (ht : RendersType typeName ts)
    (hi : RendersInit n init is) (us : List Lexeme) (id : NodeId) :
    (variableStatement expression).Takes
      (.keyword "let" :: .identifier name :: (ts ++ (is ++ .separator ";" :: us))) id
      ((Statement.variable name typeName init).numbered id) us
      (id + (Statement.variable name typeName init).mentions.length) := by
  rw [variableStatement_eq]
  refine takes_next_bind (by simp [Lexeme.keyword]) fun _ _ => ?_
  refine Takes.bind (takes_identifier _ _ _ _) ?_
  obtain ⟨l, ws, hw, hl⟩ : ∃ l ws, is ++ .separator ";" :: us = l :: ws ∧ l ≠ .separator "::" := by
    cases hi with
    | none => exact ⟨_, us, rfl, by simp [Lexeme.separator]⟩
    | some h => exact ⟨_, _, rfl, by simp [Lexeme.operator, Lexeme.separator]⟩
  have hi := takes_initialValue he hi us id
  rw [hw] at hi
  rw [hw, Statement.mentions_variable, Statement.numbered]
  refine Takes.bind (takes_declaredType ht hl ws id) (Takes.bind hi ?_)
  exact Takes.bind (takes_skip_true _ _ _) (takes_pure _ _ _)

theorem takes_expressionStatement (he : TakesInner expression n) {m : Nat} {e : Expr}
    {ls : List Lexeme} (hn : n = m + 1) (h : e.Renders m 0 ls) (us : List Lexeme) (id : NodeId) :
    (expressionStatement expression).Takes (ls ++ .separator ";" :: us) id
      (.expression (e.numbered id)) us (id + e.mentions.length) := by
  have hs : Ends 0 (.separator ";") := ends_separator (by decide) (by decide) 0
  refine Takes.bind (he m e ls hn h _ us id hs) ?_
  exact Takes.bind (takes_skip_true _ _ _) (takes_pure _ _ _)

theorem keyword_of_lexeme {t : Token} {word : String} (h : t.lexeme = .keyword word) :
    t.kind = .keyword ∧ t.text = word := by
  simpa [Token.lexeme, Lexeme.keyword] using h

theorem Starts.beginsExpression {t : Token} (h : Starts t.lexeme) :
    t.kind ≠ .keyword ∧ beginsExpression t = true := by
  rcases h with h | h
  · obtain ⟨kind, text, place⟩ := t
    simp only [Token.lexeme, List.mem_cons, List.not_mem_nil, or_false] at h
    rcases h with rfl | rfl | rfl | rfl | rfl | rfl
    all_goals exact ⟨by simp, rfl⟩
  · have hk : t.kind = .separator := congrArg Lexeme.kind h
    refine ⟨by simp [hk], ?_⟩
    simp [Parser.beginsExpression, hk, isSeparator_iff.2 h]

def Opens (l : Lexeme) : Prop := l.kind = .keyword ∨ Starts l

def Stops (l : Lexeme) : Prop := l.kind = .eof ∨ l = .separator "\x7d"

theorem exists_opens {Ending : List Lexeme → Prop} {s : Statement} {ls : List Lexeme}
    (h : s.Renders Ending n ls) : ∃ l rs, ls = l :: rs ∧ Opens l := by
  cases h with
  | importFile => exact ⟨_, _, rfl, .inl rfl⟩
  | function => exact ⟨_, _, rfl, .inl rfl⟩
  | declaration => exact ⟨_, _, rfl, .inl rfl⟩
  | expression h =>
    obtain ⟨l, rs, rfl, hl⟩ := exists_starts h
    exact ⟨l, _, rfl, .inr hl⟩

theorem Opens.kind_ne_eof (h : Opens l) : l.kind ≠ .eof := by
  intro hk
  rcases h with h | h | h
  · simp [hk] at h
  · simp [hk] at h
  · simp [h, Lexeme.separator] at hk

theorem Opens.ne_brace (h : Opens l) : l ≠ .separator "\x7d" := by
  rcases h with h | h
  · rintro rfl
    simp [Lexeme.separator] at h
  · exact h.ne_separator (by decide)

/-- The parser of function bodies, one level below the `n` levels that may be open, takes what is
written there up to a closing brace. -/
def TakesBody (p : Parser σ (List Statement)) (n : Nat) : Prop :=
  ∀ (m : Nat) (ss : List Statement) (ls : List Lexeme), n = m + 1 →
    Statement.RendersAll IsClosed m ss ls → ∀ us id,
      p.Takes (ls ++ .separator "\x7d" :: us) id (Statement.numberedAll id ss)
        (.separator "\x7d" :: us) (id + (Statement.mentionsAll ss).length)

theorem takes_statement (he : TakesInner expression n) (hb : TakesBody body n) {s : Statement}
    {ls : List Lexeme} (h : s.Renders IsClosed n ls) (us : List Lexeme) (id : NodeId) :
    (statement expression body).Takes (ls ++ us) id (s.numbered id) us
      (id + s.mentions.length) := by
  cases h with
  | importFile h hx he =>
    obtain rfl := he
    refine takes_peek_bind fun t ht => ?_
    obtain ⟨hk, ht⟩ := keyword_of_lexeme ht
    rw [if_pos hk, if_pos ht]
    exact takes_importStatement hx us id
  | function h hs =>
    refine takes_peek_bind fun t ht => ?_
    obtain ⟨hk, ht⟩ := keyword_of_lexeme ht
    rw [if_pos hk, if_neg (by simp [ht]), if_pos ht]
    simpa [Statement.numbered, Statement.mentions] using
      takes_functionStatement (hb _ _ _ rfl hs us id)
  | declaration h ht hi he' =>
    obtain rfl := he'
    refine takes_peek_bind fun t htl => ?_
    obtain ⟨hk, htl⟩ := keyword_of_lexeme htl
    rw [if_pos hk, if_neg (by simp [htl]), if_neg (by simp [htl]), if_pos htl]
    simpa using takes_variableStatement he ht hi us id
  | @expression m e ls es h he' =>
    obtain rfl := he'
    obtain ⟨l, rs, rfl, hl⟩ := exists_starts h
    refine takes_peek_bind fun t ht => ?_
    obtain ⟨hk, hb⟩ := Starts.beginsExpression (t := t) (ht ▸ hl)
    rw [if_neg hk, if_pos hb]
    simpa [Statement.numbered, Statement.mentions] using takes_expressionStatement he rfl h us id

theorem takes_statementList (hb : TakesBody body n) {ss : List Statement} {ls : List Lexeme}
    (h : Statement.RendersAll IsClosed n ss ls) {l : Lexeme} (hl : Stops l) (us : List Lexeme)
    (id : NodeId) :
    (statementList n body).Takes (ls ++ l :: us) id (Statement.numberedAll id ss) (l :: us)
      (id + (Statement.mentionsAll ss).length) := by
  induction ss generalizing ls id with
  | nil =>
    cases h
    refine takes_manyUntil_nil fun t ht => ?_
    subst ht
    rcases hl with h | h
    · have he : t.isEof = true := by simpa [Token.isEof, Token.lexeme] using h
      rw [he, Bool.true_or]
    · rw [isSeparator_iff.2 h, Bool.or_true]
  | cons s ss ih =>
    cases h with
    | @cons _ _ _ ls rs h hs =>
      have ht := takes_statement (takesInner_expression n) hb h (rs ++ l :: us) id
      obtain ⟨r, ws, rfl, hr⟩ := exists_opens h
      have hstop : ∀ t : Token, t.lexeme = r → (t.isEof || t.isSeparator "\x7d") = false := by
        rintro t rfl
        have he : t.isEof = false := by simpa [Token.isEof, Token.lexeme] using hr.kind_ne_eof
        rw [he, isSeparator_eq_false hr.ne_brace, Bool.or_false]
      have hm := takes_manyUntil_cons hstop ht (ih hs (id + s.mentions.length))
      rw [Statement.numberedAll, Statement.mentionsAll, List.length_append, ← Nat.add_assoc,
        List.append_assoc]
      exact hm

theorem takes_statements {n : Nat} {ss : List Statement} {ls : List Lexeme}
    (h : Statement.RendersAll IsClosed n ss ls) {l : Lexeme} (hl : Stops l) (us : List Lexeme)
    (id : NodeId) :
    (statements n : Parser σ _).Takes (ls ++ l :: us) id (Statement.numberedAll id ss) (l :: us)
      (id + (Statement.mentionsAll ss).length) := by
  induction n generalizing ss ls l us id with
  | zero =>
    refine takes_statementList (fun m ss ls hm => ?_) h hl us id
    omega
  | succ n ih =>
    refine takes_statementList (fun m ss ls hm h us id => ?_) h hl us id
    obtain rfl : n = m := Nat.succ.inj hm
    exact ih h (.inr rfl) us id

end Statements

theorem takes_program {p : Program} {ls : List Lexeme} (h : p.Renders IsClosed maxNesting ls)
    (hl : l.kind = .eof) :
    (program : Parser σ _).Takes (ls ++ [l]) 0 p.numbered [l]
      (Statement.mentionsAll p.statements).length := by
  refine Takes.bind (takes_statements h (.inl hl) [] 0) (takes_peek_bind fun t ht => ?_)
  have he : t.isEof = true := by
    rw [← ht] at hl
    simpa [Token.isEof, Token.lexeme] using hl
  rw [if_pos he, Nat.zero_add]
  exact takes_pure _ _ _

end Parser

end FlatScript
