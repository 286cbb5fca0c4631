import FlatScript.Proofs.Lookahead
import FlatScript.Proofs.Run

namespace FlatScript

variable {σ τ : Type} [TokenSource σ] [TokenSource τ] {α β γ : Type}

namespace Lookahead

/-- What the buffer gives when a token is taken for the time `k`, the first time being 0. -/
def answer (l : Lookahead σ) : Nat → Answer
  | 0 => l.next.1
  | k + 1 => l.next.2.answer k

variable {l l' : Lookahead σ} {t : Token}

theorem answer_next (l : Lookahead σ) (k : Nat) : l.next.2.answer k = l.answer (k + 1) := rfl

theorem answer_scan {s s' : σ} (h : TokenSource.scan s = (.ok t, s')) (us : List Token) (k : Nat) :
    answer ⟨s', us ++ [t]⟩ k = answer ⟨s, us⟩ k := by
  induction us generalizing k with
  | nil =>
    have hn : next ⟨s', [t]⟩ = next ⟨s, []⟩ := by simp [next, h]
    cases k with
    | zero => exact congrArg Prod.fst hn
    | succ k => exact congrArg (fun r => answer r.2 k) hn
  | cons u us ih =>
    cases k with
    | zero => rfl
    | succ k => exact ih k

theorem answer_length (s : σ) (us : List Token) :
    answer ⟨s, us⟩ us.length = (TokenSource.scan s).1 := by
  induction us with
  | nil => rfl
  | cons u us ih => exact ih

theorem answer_pull (h : l.pull = (.ok t, l')) (k : Nat) : l'.answer k = l.answer k := by
  unfold pull at h
  split at h
  next v s hs =>
    obtain ⟨rfl, rfl⟩ : v = t ∧ _ = l' := by simpa using h
    exact answer_scan hs l.pending k
  next => simp at h

theorem pull_eq_answer (l : Lookahead σ) : l.pull.1 = l.answer l.pending.length := by
  have ha : l.answer l.pending.length = (TokenSource.scan l.source).1 :=
    answer_length l.source l.pending
  rw [ha, pull]
  rcases TokenSource.scan l.source with ⟨e | t, s⟩
  · rfl
  · rfl

theorem peek_eq_answer (l : Lookahead σ) : l.peek.1 = l.answer 0 := by
  unfold peek
  split
  next t ts h => simp [answer, next, h]
  next h => rw [pull_eq_answer, h, List.length_nil]

theorem answer_peek (h : l.peek = (.ok t, l')) (k : Nat) : l'.answer k = l.answer k := by
  unfold peek at h
  split at h
  next =>
    obtain ⟨-, rfl⟩ : _ ∧ l = l' := by simpa using h
    rfl
  next => exact answer_pull h k

theorem answer_peek2 (h : l.peek2 = (.ok t, l')) (k : Nat) : l'.answer k = l.answer k := by
  unfold peek2 at h
  split at h
  next =>
    obtain ⟨-, rfl⟩ : _ ∧ l = l' := by simpa using h
    rfl
  next => exact answer_pull h k
  next =>
    split at h
    next u m hm => exact (answer_pull h k).trans (answer_pull hm k)
    next => simp at h

theorem peek2_next (ht : l.answer 0 = .ok t) :
    (∃ e, l.peek2.1 = .error e ∧ l.next.2.peek.1 = .error e) ∨
      ∃ u l₁ l₂, l.peek2 = (.ok u, l₁) ∧ l₁.next = (.ok t, l₂) ∧ l.next.2.peek = (.ok u, l₂) := by
  obtain ⟨s, pending⟩ := l
  match pending with
  | v :: u :: us =>
    obtain rfl : v = t := Except.ok.inj ht
    exact .inr ⟨u, _, _, rfl, rfl, rfl⟩
  | [v] =>
    obtain rfl : v = t := Except.ok.inj ht
    rcases hs : TokenSource.scan s with ⟨e | u, s'⟩
    · refine .inl ⟨e, ?_, ?_⟩
      · simp [peek2, pull, hs]
      · simp [next, peek, pull, hs]
    · refine .inr ⟨u, ⟨s', [v, u]⟩, ⟨s', [u]⟩, ?_, rfl, ?_⟩
      · simp [peek2, pull, hs]
      · simp [next, peek, pull, hs]
  | [] =>
    rcases hs : TokenSource.scan s with ⟨e | v, s'⟩
    · simp [answer, next, hs] at ht
    · obtain rfl : v = t := by simpa [answer, next, hs] using ht
      rcases hs' : TokenSource.scan s' with ⟨e | u, s''⟩
      · refine .inl ⟨e, ?_, ?_⟩
        · simp [peek2, pull, hs, hs']
        · simp [next, peek, pull, hs, hs']
      · refine .inr ⟨u, ⟨s'', [v, u]⟩, ⟨s'', [u]⟩, ?_, rfl, ?_⟩
        · simp [peek2, pull, hs, hs']
        · simp [next, peek, pull, hs, hs']

end Lookahead

def ParserState.answer (s : ParserState σ) (k : Nat) : Lookahead.Answer := s.tokens.answer k

/-! ### Where a parser stops -/

/-- What a parser finds wrong with a token. -/
inductive Complaint
  | unexpected (expected : Expectation)
  | literal (kind : NumberKind)
  | importPath
  | reserved
  | tooDeep
deriving DecidableEq, Repr

namespace Complaint

def about (c : Complaint) (t : Token) : ParseError :=
  match c with
  | .unexpected expected =>
    if t.isEof then .unexpectedEof expected t.location
    else .unexpectedToken expected t.text t.location
  | .literal kind => .invalidLiteral kind t.text t.location
  | .importPath => .invalidImportPath t.text Parser.importExtension t.location
  | .reserved => .reservedKeyword t.text t.location
  | .tooDeep => .nestingTooDeep Parser.maxNesting t.location

def error (c : Complaint) : Lookahead.Answer → ParseError
  | .ok t => c.about t
  | .error e => .lex e

end Complaint

/-- What a parser stops in: a result, with the next number behind it, or a complaint. -/
inductive Verdict (α : Type)
  | accept (a : α) (nextId : NodeId)
  | reject (c : Complaint)

/-- Answers between which no parser can tell: tokens that differ in their places at most, or
faults. -/
def Alike : Lookahead.Answer → Lookahead.Answer → Prop
  | .ok t, .ok t' => t'.lexeme = t.lexeme
  | .error _, .error _ => True
  | _, _ => False

/-- Answers behind what has been taken that lead to the same verdict. A parser that has a result in
front of a fault has not looked at it. -/
def Verdict.Covers : Verdict α → Lookahead.Answer → Lookahead.Answer → Prop
  | .accept _ _, .error _, _ => True
  | _, r, r' => Alike r r'

theorem Verdict.Covers.exists_token {v : Verdict α} {r : Lookahead.Answer} {t : Token}
    (h : v.Covers (.ok t) r) : ∃ t', r = .ok t' ∧ t'.lexeme = t.lexeme := by
  cases r with
  | ok t' =>
    refine ⟨t', rfl, ?_⟩
    cases v with
    | accept => exact h
    | reject => exact h
  | error =>
    cases v with
    | accept => exact h.elim
    | reject => exact h.elim

theorem Verdict.Covers.refl (v : Verdict α) (r : Lookahead.Answer) : v.Covers r r := by
  cases r with
  | ok t =>
    cases v with
    | accept => exact rfl
    | reject => exact rfl
  | error e =>
    cases v with
    | accept => trivial
    | reject => trivial

theorem Verdict.Covers.accept {v : Verdict α} {r r' : Lookahead.Answer} (h : v.Covers r r') (b : β)
    (id : NodeId) : (Verdict.accept b id).Covers r r' := by
  cases r with
  | error => trivial
  | ok t =>
    obtain ⟨t', rfl, ht⟩ := h.exists_token
    exact ht

def ParserState.AlikeTo (s : ParserState σ) (s' : ParserState τ) (k : Nat) : Prop :=
  ∀ i < k, ∃ t t', s.answer i = .ok t ∧ s'.answer i = .ok t' ∧ t'.lexeme = t.lexeme

namespace Parser

/-- From `s` on, the parser stops in the verdict behind `k` tokens. -/
def StopsAt (p : Parser σ α) (s : ParserState σ) (k : Nat) : Verdict α → Prop
  | .accept a id => ∃ s', p.run s = (.ok a, s') ∧ s'.nextId = id ∧
      ∀ i, s'.answer i = s.answer (k + i)
  | .reject c => (p.run s).1 = .error (c.error (s.answer k))

/-- From `s` on, `p` takes `k` tokens and stops in the verdict `v`, and so does `p'` from every
state that begins in the same way. -/
structure AgreesAs (s : ParserState σ) (p : Parser σ α) (p' : Parser τ α) (k : Nat)
    (v : Verdict α) : Prop where
  taken : ∀ i < k, ∃ t, s.answer i = .ok t
  stops : p.StopsAt s k v
  agrees : ∀ s' : ParserState τ, s'.nextId = s.nextId → s.AlikeTo s' k →
    v.Covers (s.answer k) (s'.answer k) → p'.StopsAt s' k v

def Agrees (s : ParserState σ) (p : Parser σ α) (p' : Parser τ α) : Prop :=
  ∃ k v, AgreesAs s p p' k v

variable {s s' s₁ : ParserState σ} {p q : Parser σ α} {p' q' : Parser τ α} {t : Token}

/-! ### Steps -/

/-- The parser ends in the next token, and takes `w` tokens; there is nothing that it takes but the
next token. -/
def Looks (p : Parser σ Token) (w : Nat) : Prop :=
  w ≤ 1 ∧ ∀ s,
    (∃ t s', p.run s = (.ok t, s') ∧ s.answer 0 = .ok t ∧ s'.nextId = s.nextId ∧
      ∀ i, s'.answer i = s.answer (w + i)) ∨
    ∃ e, (p.run s).1 = .error (.lex e) ∧ s.answer 0 = .error e

theorem looks_next : (next : Parser σ Token).Looks 1 := by
  refine ⟨Nat.le_refl 1, fun s => ?_⟩
  rcases hn : s.tokens.next with ⟨e | t, l⟩
  · exact .inr ⟨e, by simp [next, ofTokens, hn], congrArg Prod.fst hn⟩
  · refine .inl ⟨t, ⟨l, s.nextId⟩, run_next_eq_ok.2 ⟨hn, rfl⟩, congrArg Prod.fst hn, rfl, ?_⟩
    intro i
    rw [Nat.add_comm]
    exact congrArg (fun r => r.2.answer i) hn.symm

theorem looks_peek : (peek : Parser σ Token).Looks 0 := by
  refine ⟨Nat.zero_le 1, fun s => ?_⟩
  have ha := s.tokens.peek_eq_answer
  rcases hp : s.tokens.peek with ⟨e | t, l⟩
  · rw [hp] at ha
    exact .inr ⟨e, by simp [peek, ofTokens, hp], ha.symm⟩
  · rw [hp] at ha
    refine .inl ⟨t, ⟨l, s.nextId⟩, run_peek_eq_ok.2 ⟨hp, rfl⟩, ha.symm, rfl, fun i => ?_⟩
    rw [Nat.zero_add]
    exact Lookahead.answer_peek hp i

theorem Looks.answer_of_run {look : Parser σ Token} {w : Nat} (hw : look.Looks w)
    (h : look.run s = (.ok t, s')) :
    s.answer 0 = .ok t ∧ s'.nextId = s.nextId ∧ ∀ i, s'.answer i = s.answer (w + i) := by
  rcases hw.2 s with ⟨u, s₁, hr, ha, hid, hs⟩ | ⟨e, he, -⟩
  · obtain ⟨rfl, rfl⟩ : u = t ∧ s₁ = s' := by simpa [hr] using h
    exact ⟨ha, hid, hs⟩
  · simp [h] at he

theorem Looks.exists_run {look : Parser σ Token} {w : Nat} (hw : look.Looks w)
    (h : s.answer 0 = .ok t) :
    ∃ s', look.run s = (.ok t, s') ∧ s'.nextId = s.nextId ∧
      ∀ i, s'.answer i = s.answer (w + i) := by
  rcases hw.2 s with ⟨u, s₁, hr, ha, hid, hs⟩ | ⟨e, -, he⟩
  · obtain rfl : t = u := by simpa [h] using ha
    exact ⟨s₁, hr, hid, hs⟩
  · simp [h] at he

/-! ### Agreement -/

theorem Agrees.exists_accept {a : α} (h : Agrees s p p') (hr : p.run s = (.ok a, s₁)) :
    ∃ k, AgreesAs s p p' k (.accept a s₁.nextId) ∧ ∀ i, s₁.answer i = s.answer (k + i) := by
  obtain ⟨k, v, h⟩ := h
  cases v with
  | accept b id =>
    obtain ⟨s₂, hr₂, hid, hs₂⟩ := h.stops
    obtain ⟨rfl, rfl⟩ : a = b ∧ s₁ = s₂ := by simpa [hr] using hr₂
    exact ⟨k, hid ▸ h, hs₂⟩
  | reject c =>
    have he : (p.run s).1 = .error (c.error (s.answer k)) := h.stops
    rw [hr] at he
    exact nomatch he

theorem Agrees.exists_reject {e : ParseError} (h : Agrees s p p')
    (he : (p.run s).1 = .error e) :
    ∃ k c, AgreesAs s p p' k (.reject c) ∧ e = c.error (s.answer k) := by
  obtain ⟨k, v, h⟩ := h
  cases v with
  | accept a id =>
    obtain ⟨s₁, hr, -⟩ := h.stops
    rw [hr] at he
    exact nomatch he
  | reject c => exact ⟨k, c, h, Except.error.inj (he.symm.trans h.stops)⟩

theorem agrees_pure (s : ParserState σ) (a : α) :
    Agrees s (pure a : Parser σ α) (pure a : Parser τ α) := by
  refine ⟨0, .accept a s.nextId, fun i hi => absurd hi (Nat.not_lt_zero i), ?_, ?_⟩
  · exact ⟨s, rfl, rfl, fun i => by rw [Nat.zero_add]⟩
  · exact fun s' hid _ _ => ⟨s', rfl, hid, fun i => by rw [Nat.zero_add]⟩

theorem agrees_fresh (s : ParserState σ) :
    Agrees s (fresh : Parser σ NodeId) (fresh : Parser τ NodeId) := by
  refine ⟨0, .accept s.nextId (s.nextId + 1), fun i hi => absurd hi (Nat.not_lt_zero i), ?_, ?_⟩
  · exact ⟨_, rfl, rfl, fun i => by rw [Nat.zero_add]; rfl⟩
  · rintro s' hid - -
    exact ⟨_, by rw [← hid]; rfl, by rw [← hid], fun i => by rw [Nat.zero_add]; rfl⟩

theorem fst_bind_of_error {e : ParseError} (h : (p.run s).1 = .error e) (f : α → Parser σ β) :
    ((p >>= f).run s).1 = .error e := by
  rw [run_bind]
  split
  next hr => simp [hr] at h
  next e' s' hr =>
    rw [hr] at h
    rw [Except.error.inj h]

theorem StopsAt.bind_reject {k : Nat} {c : Complaint} (h : p.StopsAt s k (.reject c))
    (f : α → Parser σ β) : (p >>= f).StopsAt s k (.reject c) :=
  fst_bind_of_error h f

theorem StopsAt.bind_accept {f : α → Parser σ β} {a : α} {k k' : Nat} {v : Verdict β}
    (hr : p.run s = (.ok a, s₁)) (hs : ∀ i, s₁.answer i = s.answer (k + i))
    (h : (f a).StopsAt s₁ k' v) : (p >>= f).StopsAt s (k + k') v := by
  cases v with
  | accept b id =>
    obtain ⟨s₂, hf, hid, hs₂⟩ := h
    refine ⟨s₂, run_bind_eq_ok.2 ⟨a, s₁, hr, hf⟩, hid, fun i => ?_⟩
    rw [hs₂, hs, Nat.add_assoc]
  | reject c =>
    have h : ((f a).run s₁).1 = .error (c.error (s₁.answer k')) := h
    change ((p >>= f).run s).1 = _
    rw [run_bind, hr, ← hs]
    exact h

theorem Agrees.bind {f : α → Parser σ β} {f' : α → Parser τ β} (hp : Agrees s p p')
    (hf : ∀ a s₁, p.run s = (.ok a, s₁) → Agrees s₁ (f a) (f' a)) :
    Agrees s (p >>= f) (p' >>= f') := by
  -- What the second parser does depends on the first one only through the result, the next number
  -- and the tokens that are left.
  obtain ⟨k, v, hp⟩ := hp
  cases v with
  | reject c =>
    exact ⟨k, .reject c, hp.taken, hp.stops.bind_reject f,
      fun s' hid hs hc => (hp.agrees s' hid hs hc).bind_reject f'⟩
  | accept a id =>
    obtain ⟨s₁, hr, hid₁, hs₁⟩ := hp.stops
    obtain ⟨k', v, hf⟩ := hf a s₁ hr
    refine ⟨k + k', v, fun i hi => ?_, hf.stops.bind_accept hr hs₁, fun s' hid hs hc => ?_⟩
    · by_cases hik : i < k
      · exact hp.taken i hik
      · obtain ⟨t, ht⟩ := hf.taken (i - k) (by omega)
        rw [hs₁, Nat.add_sub_cancel' (Nat.le_of_not_lt hik)] at ht
        exact ⟨t, ht⟩
    · -- Behind the first `k` tokens there is one more, or the verdict is that of the second parser.
      have hcov : (Verdict.accept a id).Covers (s.answer k) (s'.answer k) := by
        by_cases hk : k' = 0
        · subst hk
          exact hc.accept a id
        · obtain ⟨t, t', ht, ht', hl⟩ := hs k (by omega)
          rw [ht, ht']
          exact hl
      obtain ⟨s₁', hr', hid₁', hs₁'⟩ := hp.agrees s' hid (fun i hi => hs i (by omega)) hcov
      refine (hf.agrees s₁' (hid₁'.trans hid₁.symm) (fun i hi => ?_) ?_).bind_accept hr' hs₁'
      · obtain ⟨t, t', ht, ht', hl⟩ := hs (k + i) (by omega)
        exact ⟨t, t', by rw [hs₁, ht], by rw [hs₁', ht'], hl⟩
      · rw [hs₁, hs₁']
        exact hc

theorem Agrees.map (hp : Agrees s p p') (f : α → β) : Agrees s (f <$> p) (f <$> p') :=
  hp.bind fun a s₁ _ => agrees_pure s₁ (f a)

theorem AgreesAs.of_fault {w : Nat} {look : Parser σ Token} {look' : Parser τ Token}
    {f : Token → Parser σ β} {f' : Token → Parser τ β} {e : LexError} (hw : look.Looks w)
    (hw' : look'.Looks w) (h : s.answer 0 = .error e) (c : Complaint) :
    AgreesAs s (look >>= f) (look' >>= f') 0 (.reject c) := by
  have hstop : ∀ {ρ : Type} [TokenSource ρ] {p : Parser ρ Token} {g : Token → Parser ρ β}
      {u : ParserState ρ} {e : LexError}, p.Looks w → u.answer 0 = .error e →
        (p >>= g).StopsAt u 0 (.reject c) := by
    intro ρ _ p g u e hp hu
    refine StopsAt.bind_reject ?_ g
    rcases hp.2 u with ⟨t, s₁, -, ha, -⟩ | ⟨e', he, ha⟩
    · simp [hu] at ha
    · rw [StopsAt, he, ha]
      rfl
  refine ⟨fun i hi => absurd hi (Nat.not_lt_zero i), hstop hw h, fun s' _ _ hc => ?_⟩
  rw [h] at hc
  cases ha : s'.answer 0 with
  | error e' => exact hstop hw' ha
  | ok t => simp [ha, Verdict.Covers, Alike] at hc

/-- In front of every token with the lexeme of `t`, the parser complains about that token. -/
def Refuses (look : Parser σ Token) (f : Token → Parser σ β) (c : Complaint) (t : Token) : Prop :=
  ∀ t' s s', t'.lexeme = t.lexeme → look.run s = (.ok t', s') →
    ((f t').run s').1 = .error (c.about t')

theorem StopsAt.of_refuses {look : Parser σ Token} {w : Nat} {f : Token → Parser σ β}
    {c : Complaint} {t' : Token} (hw : look.Looks w) (hc : Refuses look f c t)
    (hl : t'.lexeme = t.lexeme) (ht : s.answer 0 = .ok t') :
    (look >>= f).StopsAt s 0 (.reject c) := by
  obtain ⟨s₁, hr, -⟩ := hw.exists_run ht
  rw [StopsAt, run_bind, hr, ht]
  exact hc t' s s₁ hl hr

theorem exists_first {s' : ParserState τ} {k : Nat} {v : Verdict β} (ht : s.answer 0 = .ok t)
    (hs : s.AlikeTo s' k) (hc : v.Covers (s.answer k) (s'.answer k)) :
    ∃ t', s'.answer 0 = .ok t' ∧ t'.lexeme = t.lexeme := by
  by_cases hk : k = 0
  · rw [hk, ht] at hc
    exact hc.exists_token
  · obtain ⟨u, t', hu, ht', hl⟩ := hs 0 (Nat.pos_of_ne_zero hk)
    obtain rfl : t = u := by simpa [ht] using hu
    exact ⟨t', ht', hl⟩

theorem agrees_look_bind {look : Parser σ Token} {look' : Parser τ Token} {w : Nat}
    {f : Token → Parser σ β} {f' : Token → Parser τ β} (hw : look.Looks w) (hw' : look'.Looks w)
    (h : ∀ t s₁, look.run s = (.ok t, s₁) →
      (Agrees s₁ (f t) (f' t) ∧ ∀ t', t'.lexeme = t.lexeme → f' t' = f' t) ∨
        ∃ c, Refuses look f c t ∧ Refuses look' f' c t) :
    Agrees s (look >>= f) (look' >>= f') := by
  rcases hw.2 s with ⟨t, s₁, hr, ha, hid, hs₁⟩ | ⟨e, -, he⟩
  · rcases h t s₁ hr with ⟨⟨k, v, hf⟩, hl⟩ | ⟨c, hc, hc'⟩
    · refine ⟨w + k, v, fun i hi => ?_, hf.stops.bind_accept hr hs₁, fun s' hid' hs hcov => ?_⟩
      · by_cases hiw : i < w
        · obtain rfl : i = 0 := Nat.lt_one_iff.1 (Nat.lt_of_lt_of_le hiw hw.1)
          exact ⟨t, ha⟩
        · obtain ⟨u, hu⟩ := hf.taken (i - w) (by omega)
          rw [hs₁, Nat.add_sub_cancel' (Nat.le_of_not_lt hiw)] at hu
          exact ⟨u, hu⟩
      · obtain ⟨t', ha', hl'⟩ := exists_first ha hs hcov
        obtain ⟨s₁', hr', hid₁', hs₁'⟩ := hw'.exists_run ha'
        refine StopsAt.bind_accept hr' hs₁' ?_
        rw [hl t' hl']
        refine hf.agrees s₁' (hid₁'.trans (hid'.trans hid.symm)) (fun i hi => ?_) ?_
        · rw [hs₁, hs₁']
          exact hs (w + i) (by omega)
        · rw [hs₁, hs₁']
          exact hcov
    · refine ⟨0, .reject c, fun i hi => absurd hi (Nat.not_lt_zero i), ?_, fun s' _ _ hcov => ?_⟩
      · exact .of_refuses hw hc rfl ha
      · rw [ha] at hcov
        obtain ⟨t', ha', hl'⟩ := hcov.exists_token
        exact .of_refuses hw' hc' hl' ha'
  · exact ⟨0, _, .of_fault hw hw' he .tooDeep⟩

theorem agrees_look_ite {look : Parser σ Token} {look' : Parser τ Token} {w : Nat}
    {P : Token → Prop} [DecidablePred P] {f : Token → Parser σ β} {f' : Token → Parser τ β}
    (hw : look.Looks w) (hw' : look'.Looks w)
    (hP : ∀ t t' : Token, t'.lexeme = t.lexeme → (P t' ↔ P t)) (c : Complaint)
    (h : ∀ t s₁, look.run s = (.ok t, s₁) → P t →
      Agrees s₁ (f t) (f' t) ∧ ∀ t', t'.lexeme = t.lexeme → f' t' = f' t) :
    Agrees s (look >>= fun t => if P t then f t else fail (c.about t))
      (look' >>= fun t => if P t then f' t else fail (c.about t)) := by
  refine agrees_look_bind hw hw' fun t s₁ hr => ?_
  by_cases ht : P t
  · obtain ⟨hf, hl⟩ := h t s₁ hr ht
    refine .inl ⟨by rwa [if_pos ht, if_pos ht], fun t' hl' => ?_⟩
    rw [if_pos ht, if_pos ((hP t t' hl').2 ht), hl t' hl']
  · have hn : ∀ t', t'.lexeme = t.lexeme → ¬ P t' := fun t' hl ht' => ht ((hP t t' hl).1 ht')
    refine .inr ⟨c, fun t' u u' hl _ => ?_, fun t' u u' hl _ => ?_⟩
    · simp only [if_neg (hn t' hl)]
      rfl
    · simp only [if_neg (hn t' hl)]
      rfl

/-! ### Loops -/

theorem isEof_eq_of_lexeme {t t' : Token} (h : t'.lexeme = t.lexeme) : t'.isEof = t.isEof := by
  have hk : t'.kind = t.kind := congrArg Lexeme.kind h
  rw [Token.isEof, hk, Token.isEof]

def IgnoresPlace (pick : Token → α) : Prop :=
  ∀ t t' : Token, t'.lexeme = t.lexeme → pick t' = pick t

theorem agrees_accept {pick : Token → Option γ} (hpick : IgnoresPlace pick) (s : ParserState σ) :
    Agrees s (accept? pick : Parser σ _) (accept? pick : Parser τ _) := by
  refine agrees_look_bind looks_peek looks_peek fun t s₁ _ => .inl ⟨?_, fun t' hl => ?_⟩
  · split
    · exact agrees_pure s₁ none
    · split
      · exact agrees_pure s₁ none
      · refine agrees_look_bind looks_next looks_next fun u s₂ _ => .inl ⟨?_, fun _ _ => rfl⟩
        exact agrees_pure s₂ _
  · rw [isEof_eq_of_lexeme hl, hpick t t' hl]

theorem many_eq (pick : Token → Option γ) (p : γ → Parser σ α) :
    many pick p = (do
      match ← accept? pick with
      | none => return []
      | some c => do
        let a ← p c
        let as ← many pick p
        return a :: as) := by
  refine eq_of_run fun s => ?_
  change runMany pick p s = _
  rw [run_bind]
  have hm : ∀ s, (many pick p).run s = runMany pick p s := fun _ => rfl
  fun_cases runMany pick p s with
  | case1 e s₁ ha => rw [ha]
  | case2 s₁ ha => rw [ha]; rfl
  | case3 c s₁ ha e s₂ hp => simp only [ha, run_bind, hp]
  | case4 c s₁ ha a s₂ hp _ e s₃ hr => simp only [ha, run_bind, hp, hm, hr]
  | case5 c s₁ ha a s₂ hp _ as s₃ hr => simp only [ha, run_bind, hp, hm, hr, run_pure]

theorem manyUntil_eq (stop : Token → Bool) (p : Parser σ α) (hc : p.Consumes) :
    manyUntil stop p hc = (do
      let t ← peek
      if stop t then return []
      let a ← p
      let as ← manyUntil stop p hc
      return a :: as) := by
  refine eq_of_run fun s => ?_
  change runManyUntil stop p hc s = _
  rw [run_bind]
  have hm : ∀ s, (manyUntil stop p hc).run s = runManyUntil stop p hc s := fun _ => rfl
  fun_cases runManyUntil stop p hc s with
  | case1 e s₁ ht => rw [ht]
  | case2 t s₁ ht hs => simp only [ht, hs, if_true, run_pure]
  | case3 t s₁ ht hs e s₂ hp => simp only [ht, if_neg hs, run_bind, hp]
  | case4 t s₁ ht hs a s₂ hp _ e s₃ hr => simp only [ht, if_neg hs, run_bind, hp, hm, hr]
  | case5 t s₁ ht hs a s₂ hp _ as s₃ hr => simp only [ht, if_neg hs, run_bind, hp, hm, hr, run_pure]

theorem agrees_many {pick : Token → Option γ} {g : γ → Parser σ α} {g' : γ → Parser τ α}
    (hpick : IgnoresPlace pick) (hg : ∀ c (s : ParserState σ), Agrees s (g c) (g' c))
    (s : ParserState σ) : Agrees s (many pick g) (many pick g') := by
  -- Each round takes a token, so the induction is on what is left to read.
  induction hn : s.tokens.size using Nat.strongRecOn generalizing s with
  | _ n ih =>
    rw [many_eq pick g, many_eq pick g']
    refine (agrees_accept hpick s).bind fun r s₁ ha => ?_
    cases r with
    | none => exact agrees_pure s₁ []
    | some c =>
      refine (hg c s₁).bind fun a s₂ hr => ?_
      have hlt : s₂.tokens.size < n :=
        hn ▸ Nat.lt_of_le_of_lt (size_of_run hr) (size_accept_lt ha)
      exact (ih _ hlt s₂ rfl).bind fun as s₃ _ => agrees_pure s₃ _

theorem agrees_manyUntil {stop : Token → Bool} {p : Parser σ α} {p' : Parser τ α}
    {hc : p.Consumes} {hc' : p'.Consumes} (hstop : IgnoresPlace stop)
    (hp : ∀ s : ParserState σ, Agrees s p p') (s : ParserState σ) :
    Agrees s (manyUntil stop p hc) (manyUntil stop p' hc') := by
  induction hn : s.tokens.size using Nat.strongRecOn generalizing s with
  | _ n ih =>
    rw [manyUntil_eq stop p, manyUntil_eq stop p']
    refine agrees_look_bind looks_peek looks_peek fun t s₁ ht => .inl ⟨?_, fun t' hl => ?_⟩
    · split
      · exact agrees_pure s₁ []
      · refine (hp s₁).bind fun a s₂ hr => ?_
        have hlt : s₂.tokens.size < s₁.tokens.size := by
          have h := hc s₁ a (by rw [hr])
          rwa [hr] at h
        have hlt' : s₂.tokens.size < n := hn ▸ Nat.lt_of_lt_of_le hlt (size_of_run ht)
        exact (ih _ hlt' s₂ rfl).bind fun as s₃ _ => agrees_pure s₃ _
    · rw [hstop t t' hl]

end Parser

end FlatScript
