import FlatScript.Proofs.Steering

namespace FlatScript

def Lexeme.eof : Lexeme := ⟨.eof, ""⟩

/-- What is put behind a text in place of its end: lexemes that begin a statement, or the end of
input. The text has `shift` numbers given out before it. -/
structure Seam where
  first : Lexeme
  rest : List Lexeme
  shift : Nat
  begins : first.kind = .eof ∨ Parser.Opens first

namespace Seam

def behind (j : Seam) : List Lexeme := j.first :: j.rest

theorem first_ne_separator (j : Seam) {text : String} (h : text ≠ "(") :
    j.first ≠ .separator text := by
  rcases j.begins with hk | hk | hs
  · intro hl
    simp [hl, Lexeme.separator] at hk
  · intro hl
    simp [hl, Lexeme.separator] at hk
  · exact hs.ne_separator h

theorem kind_first_ne_operator (j : Seam) : j.first.kind ≠ .operator := by
  intro hl
  rcases j.begins with hk | hk | hs | hs
  · simp [hl] at hk
  · simp [hl] at hk
  · simp [hl] at hs
  · simp [hs, Lexeme.separator] at hl

end Seam

variable {σ : Type} [TokenSource σ] {α β γ δ : Type} {j : Seam}

/-- In front of the lexemes `ls` and the end of input, in place of which there may be the seam: a
name at the end does not get a parenthesis behind it. -/
structure ParserState.Faces (s : ParserState σ) (j : Seam) (ls : List Lexeme) : Prop where
  shows : s.Shows (ls ++ [.eof])
  inside : ∀ l ∈ ls, l.kind ≠ .eof
  parted : j.first = .separator "(" → ∀ l ∈ ls.getLast?, l.kind ≠ .identifier

theorem ParserState.Shows.unique {s : ParserState σ} {ls rs : List Lexeme} (h : s.Shows ls)
    (h' : s.Shows rs) : ls = rs := by
  obtain ⟨ts, rfl, hy⟩ := h
  obtain ⟨us, rfl, hy'⟩ := h'
  have hd := (Lookahead.drain_of_yields hy).symm.trans (Lookahead.drain_of_yields hy')
  rw [Except.ok.inj hd]

namespace ParserState.Faces

variable {s s' : ParserState σ} {l : Lexeme} {ls rs : List Lexeme}

theorem unique (h : s.Faces j ls) (h' : s.Faces j rs) : ls = rs :=
  List.append_cancel_right (h.shows.unique h'.shows)

theorem of_shows (h : s.Faces j ls) (hs : s'.Shows (ls ++ [.eof])) : s'.Faces j ls :=
  ⟨hs, h.inside, h.parted⟩

theorem tail (h : s.Faces j (l :: ls)) (hs : s'.Shows (ls ++ [.eof])) : s'.Faces j ls where
  shows := hs
  inside := fun r hr => h.inside r (List.mem_cons_of_mem l hr)
  parted := fun hj r hr => by
    cases ls with
    | nil => simp at hr
    | cons l' ls => exact h.parted hj r (by rwa [List.getLast?_cons_cons])

theorem kind_ne_eof (h : s.Faces j (l :: ls)) : l.kind ≠ .eof := h.inside l List.mem_cons_self

end ParserState.Faces

namespace Parser

variable {s s' : ParserState σ} {t : Token} {l : Lexeme} {ls rs us : List Lexeme}

theorem isEof_iff : t.isEof = true ↔ t.lexeme.kind = .eof := by
  simp [Token.isEof, Token.lexeme]

theorem shows_of_peek (h : s.Shows (l :: ls)) (hp : peek.run s = (.ok t, s')) :
    t.lexeme = l ∧ s'.Shows (l :: ls) ∧ s'.nextId = s.nextId := by
  obtain ⟨u, s₁, hu, hp', hs, hid⟩ := run_peek_of_shows h
  obtain ⟨rfl, rfl⟩ : u = t ∧ s₁ = s' := by simpa [hp'] using hp
  exact ⟨hu, hs, hid⟩

theorem shows_of_next (h : s.Shows (l :: ls)) (hl : l.kind ≠ .eof)
    (hn : next.run s = (.ok t, s')) : t.lexeme = l ∧ s'.Shows ls ∧ s'.nextId = s.nextId := by
  obtain ⟨u, s₁, hu, hn', hs, hid⟩ := run_next_of_shows h hl
  obtain ⟨rfl, rfl⟩ : u = t ∧ s₁ = s' := by simpa [hn'] using hn
  exact ⟨hu, hs, hid⟩

theorem lexeme_of_next (h : s.Shows (l :: ls)) (hn : next.run s = (.ok t, s')) :
    t.lexeme = l := by
  obtain ⟨ts, hts, hy⟩ := h
  obtain ⟨u, us, rfl⟩ := hy.exists_eq_cons
  obtain ⟨l', hl⟩ := hy.next_eq
  obtain rfl : u = t := by simpa [hl] using congrArg Prod.fst (run_next_eq_ok.1 hn).1
  exact (List.cons.inj hts).1

def Fails (p : Parser σ α) : Prop := ∀ s a s', p.run s ≠ (.ok a, s')

theorem fails_unexpected (expected : Expectation) (t : Token) :
    (unexpected expected t : Parser σ α).Fails := fun _ _ _ => run_unexpected_ne_ok

theorem Fails.bind_right (p : Parser σ α) {f : α → Parser σ β} (hf : ∀ a, (f a).Fails) :
    (p >>= f).Fails := by
  intro s b s' hr
  obtain ⟨a, s₁, -, hr⟩ := run_bind_eq_ok.1 hr
  exact hf a _ _ _ hr

theorem fails_tooDeep : (tooDeep : Parser σ α).Fails :=
  .bind_right _ fun _ _ _ _ => run_fail_ne_ok

end Parser

open FlatScript.Parser

/-! ### What parsers take in front of a seam -/

namespace Seam

/-- Where `p` ends in the result `a` in front of `ls` and the end of input, `q` ends in `g a` in
front of `ls` and the seam; what is left of `ls` is the same. -/
def Carries (j : Seam) (ls : List Lexeme) (p : Parser σ α) (q : Parser σ β) (g : α → β) : Prop :=
  ∀ s a s', s.Faces j ls → p.run s = (.ok a, s') → ∃ rs, s'.Faces j rs ∧
    q.Takes (ls ++ j.behind) (s.nextId + j.shift) (g a) (rs ++ j.behind) (s'.nextId + j.shift)

variable {p : Parser σ α} {q : Parser σ β} {g : α → β} {h : γ → δ} {l : Lexeme}
  {ls : List Lexeme}

theorem Carries.bind {f : α → Parser σ γ} {f' : β → Parser σ δ} (hp : j.Carries ls p q g)
    (hf : ∀ a rs, j.Carries rs (f a) (f' (g a)) h) : j.Carries ls (p >>= f) (q >>= f') h := by
  intro s c s'' hs hr
  obtain ⟨a, s', hpr, hfr⟩ := run_bind_eq_ok.1 hr
  obtain ⟨rs, hs', ht⟩ := hp s a s' hs hpr
  obtain ⟨us, hs'', ht'⟩ := hf a rs s' c s'' hs' hfr
  exact ⟨us, hs'', ht.bind ht'⟩

theorem carries_pure {a : α} {b : β} (ls : List Lexeme) (hb : g a = b) :
    j.Carries ls (pure a : Parser σ α) (pure b : Parser σ β) g := by
  intro s c s' hs hr
  obtain ⟨rfl, rfl⟩ := run_pure_eq_ok.1 hr
  rw [hb]
  exact ⟨ls, hs, takes_pure _ _ _⟩

theorem Carries.map {f : α → γ} {f' : β → δ} (hp : j.Carries ls p q g)
    (hf : ∀ a, h (f a) = f' (g a)) : j.Carries ls (f <$> p) (f' <$> q) h :=
  hp.bind fun a rs => carries_pure rs (hf a)

theorem carries_of_fails (hp : p.Fails) (ls : List Lexeme) : j.Carries ls p q g :=
  fun s a s' _ hr => absurd hr (hp s a s')

theorem carries_fresh (ls : List Lexeme) :
    j.Carries ls (fresh : Parser σ NodeId) fresh (· + j.shift) := by
  intro s id s' hs hr
  obtain ⟨rfl, ht, hid⟩ := run_fresh_eq_ok.1 hr
  refine ⟨ls, hs.of_shows ?_, ?_⟩
  · obtain ⟨ts, hts, hy⟩ := hs.shows
    exact ⟨ts, hts, ht ▸ hy⟩
  · rw [hid, Nat.add_right_comm]
    exact takes_fresh _ _

theorem carries_next_bind {f : Token → Parser σ α} {f' : Token → Parser σ β}
    (hend : ls = [] → ∀ t, t.isEof = true → (f t).Fails)
    (hf : ∀ l rs, ls = l :: rs → ∀ t t', t.lexeme = l → t'.lexeme = l →
      j.Carries rs (f t) (f' t') g) : j.Carries ls (next >>= f) (next >>= f') g := by
  intro s a s' hs hr
  obtain ⟨t, s₁, hn, hr⟩ := run_bind_eq_ok.1 hr
  cases ls with
  | nil =>
    have ht : t.isEof = true := isEof_iff.2 (lexeme_of_next hs.shows hn ▸ rfl)
    exact absurd hr (hend rfl t ht _ _ _)
  | cons l ls =>
    obtain ⟨ht, hs₁, hid⟩ := shows_of_next hs.shows hs.kind_ne_eof hn
    obtain ⟨rs, hs', -⟩ := hf l ls rfl t t ht ht s₁ a s' (hs.tail hs₁) hr
    refine ⟨rs, hs', takes_next_bind hs.kind_ne_eof fun t' ht' => ?_⟩
    obtain ⟨us, hu, htakes⟩ := hf l ls rfl t t' ht ht' s₁ a s' (hs.tail hs₁) hr
    rw [hs'.unique hu, ← hid]
    exact htakes

theorem carries_peek_bind {f : Token → Parser σ α} {f' : Token → Parser σ β}
    (hend : ls = [] → ∀ t, t.isEof = true → (f t).Fails)
    (hf : ∀ l rs, ls = l :: rs → ∀ t t', t.lexeme = l → t'.lexeme = l →
      j.Carries ls (f t) (f' t') g) : j.Carries ls (peek >>= f) (peek >>= f') g := by
  intro s a s' hs hr
  obtain ⟨t, s₁, hp, hr⟩ := run_bind_eq_ok.1 hr
  cases ls with
  | nil =>
    have ht : t.isEof = true := isEof_iff.2 ((shows_of_peek hs.shows hp).1 ▸ rfl)
    exact absurd hr (hend rfl t ht _ _ _)
  | cons l ls =>
    obtain ⟨ht, hs₁, hid⟩ := shows_of_peek hs.shows hp
    obtain ⟨rs, hs', -⟩ := hf l ls rfl t t ht ht s₁ a s' (hs.of_shows hs₁) hr
    refine ⟨rs, hs', takes_peek_bind fun t' ht' => ?_⟩
    obtain ⟨us, hu, htakes⟩ := hf l ls rfl t t' ht ht' s₁ a s' (hs.of_shows hs₁) hr
    rw [hs'.unique hu, ← hid]
    exact htakes

theorem carries_peek_bind_nil {f : Token → Parser σ α} {f' : Token → Parser σ β}
    (hf : ∀ t t', t.isEof = true → t'.lexeme = j.first → j.Carries [] (f t) (f' t') g) :
    j.Carries [] (peek >>= f) (peek >>= f') g := by
  intro s a s' hs hr
  obtain ⟨t, s₁, hp, hr⟩ := run_bind_eq_ok.1 hr
  obtain ⟨hl, hs₁, hid⟩ := shows_of_peek hs.shows hp
  have ht : t.isEof = true := isEof_iff.2 (hl ▸ rfl)
  obtain ⟨rs, hs', -⟩ := hf t (j.first.token .start) ht rfl s₁ a s' (hs.of_shows hs₁) hr
  refine ⟨rs, hs', takes_peek_bind fun t' ht' => ?_⟩
  obtain ⟨us, hu, htakes⟩ := hf t t' ht ht' s₁ a s' (hs.of_shows hs₁) hr
  rw [hs'.unique hu, ← hid]
  exact htakes

theorem carries_accept {pick : Token → Option γ} (hpick : IgnoresPlace pick)
    (hj : ∀ t, t.lexeme = j.first → pick t = none) (ls : List Lexeme) :
    j.Carries ls (accept? pick : Parser σ _) (accept? pick) id := by
  intro s r s' hs hr
  cases r with
  | none =>
    obtain ⟨t, hp, ht⟩ := run_accept_eq_none.1 hr
    cases ls with
    | nil =>
      obtain ⟨-, hs', hid⟩ := shows_of_peek hs.shows hp
      rw [hid]
      exact ⟨[], hs.of_shows hs', takes_accept_none hj⟩
    | cons l ls =>
      obtain ⟨hl, hs', hid⟩ := shows_of_peek hs.shows hp
      have hn := ht.resolve_left fun he => hs.kind_ne_eof (hl ▸ isEof_iff.1 he)
      rw [hid]
      refine ⟨l :: ls, hs.of_shows hs', takes_accept_none fun t' ht' => ?_⟩
      rw [hpick t t' (ht'.trans hl.symm), hn]
  | some c =>
    obtain ⟨t, s₁, hp, he, hc, hn⟩ := run_accept_eq_some.1 hr
    cases ls with
    | nil =>
      rw [isEof_iff.2 ((shows_of_peek hs.shows hp).1 ▸ rfl)] at he
      exact nomatch he
    | cons l ls =>
      obtain ⟨hl, hs₁, hid₁⟩ := shows_of_peek hs.shows hp
      obtain ⟨-, hs', hid⟩ := shows_of_next hs₁ hs.kind_ne_eof hn
      rw [hid, hid₁]
      refine ⟨ls, hs.tail hs', takes_accept_some hs.kind_ne_eof fun t' ht' => ?_⟩
      rw [hpick t t' (ht'.trans hl.symm), hc]

theorem carries_skip {text : String} (ht : text ≠ "(") (ls : List Lexeme) :
    j.Carries ls (skip? text : Parser σ Bool) (skip? text) id := by
  refine (carries_accept (ignoresPlace_separator text) (fun t hl => ?_) ls).bind fun found rs =>
    carries_pure rs (by rfl)
  rw [isSeparator_eq_false (hl ▸ j.first_ne_separator ht), if_neg Bool.false_ne_true]

theorem carries_many {pick : Token → Option γ} {p : γ → Parser σ α} {q : γ → Parser σ β}
    (hpick : IgnoresPlace pick) (hj : ∀ t, t.lexeme = j.first → pick t = none)
    (hp : ∀ c rs, j.Carries rs (p c) (q c) g) (ls : List Lexeme) :
    j.Carries ls (many pick p) (many pick q) (List.map g) := by
  intro s as s' hs hr
  have hm := run_many_eq_ok.1 hr
  clear hr
  induction hm generalizing ls with
  | done h =>
    obtain ⟨rs, hs', ht⟩ := carries_accept hpick hj ls _ _ _ hs h
    exact ⟨rs, hs', takes_many_nil ht⟩
  | round h hr _ ih =>
    obtain ⟨rs, hs₁, ht⟩ := carries_accept hpick hj ls _ _ _ hs h
    obtain ⟨us, hs₂, hq⟩ := hp _ rs _ _ _ hs₁ hr
    obtain ⟨vs, hs', hm⟩ := ih us hs₂
    exact ⟨vs, hs', takes_many_cons ht hq hm⟩

theorem carries_next_ite {P : Token → Prop} [DecidablePred P] {f u : Token → Parser σ α}
    {f' u' : Token → Parser σ β} (hP : ∀ t t' : Token, t'.lexeme = t.lexeme → (P t' ↔ P t))
    (he : ∀ t, P t → t.isEof = false) (hu : ∀ t, (u t).Fails)
    (hf : ∀ rs t t', P t → t'.lexeme = t.lexeme → j.Carries rs (f t) (f' t') g)
    (ls : List Lexeme) :
    j.Carries ls (next >>= fun t => if P t then f t else u t)
      (next >>= fun t => if P t then f' t else u' t) g := by
  refine carries_next_bind (fun _ t ht => ?_) fun l rs _ t t' hl hl' => ?_
  · have hn : ¬ P t := fun h => by simp [he t h] at ht
    rw [if_neg hn]
    exact hu t
  · have hlt := hl'.trans hl.symm
    by_cases h : P t
    · rw [if_pos h, if_pos ((hP t t' hlt).2 h)]
      exact hf rs t t' h hlt
    · rw [if_neg h]
      exact carries_of_fails (hu t) rs

theorem isEof_eq_false_of_kind {t : Token} {k : Token.Kind} (h : t.kind = k) (hk : k ≠ .eof) :
    t.isEof = false := by
  simp [Token.isEof, h, hk]

theorem carries_identifier (expected : Expectation) (ls : List Lexeme) :
    j.Carries ls (identifier expected : Parser σ String) (identifier expected) id := by
  refine carries_next_ite ?_ ?_ ?_ ?_ ls
  · exact fun _ _ h => kind_eq_iff_of_lexeme h .identifier
  · exact fun _ h => isEof_eq_false_of_kind h (by decide)
  · exact fun _ => fails_unexpected _ _
  · intro rs t t' _ h
    rw [text_eq_of_lexeme h]
    exact carries_pure rs rfl

theorem carries_separator (text : String) (expected : Expectation) (ls : List Lexeme) :
    j.Carries ls (separator text expected : Parser σ Unit) (separator text expected) id := by
  refine carries_next_ite ?_ ?_ ?_ ?_ ls
  · exact fun _ _ h => by rw [isSeparator_eq_of_lexeme h]
  · exact fun _ h => isEof_eq_false_of_kind (congrArg Lexeme.kind (isSeparator_iff.1 h))
      (by simp [Lexeme.separator])
  · exact fun _ => fails_unexpected _ _
  · exact fun rs _ _ _ _ => carries_pure rs rfl

/-! ### Expressions -/

section Expressions

variable {expression : Parser σ Expr}
  (he : ∀ ls, j.Carries ls expression expression (·.shifted j.shift))

include he

theorem carries_arguments (ls : List Lexeme) :
    j.Carries ls (arguments expression) (arguments expression) (Expr.shiftedAll j.shift) := by
  refine (carries_separator _ _ ls).bind fun _ rs => ?_
  refine (carries_skip (by decide) rs).bind fun found rs => ?_
  cases found with
  | true => exact carries_pure rs (by rfl)
  | false =>
    refine (he rs).bind fun first rs => ?_
    refine (carries_many (ignoresPlace_separator ",") (fun t hl => ?_)
      (fun _ rs => he rs) rs).bind fun rest rs => (carries_separator _ _ rs).bind fun _ rs => ?_
    · have ht : j.first ≠ .separator "," := j.first_ne_separator (by decide)
      rw [isSeparator_eq_false (hl ▸ ht), if_neg Bool.false_ne_true]
    · refine carries_pure rs ?_
      rw [Expr.shiftedAll, Expr.shiftedAll_eq_map]

theorem carries_referenceTail (name : String) {after after' : Token}
    (hm : after'.isSeparator "::" = after.isSeparator "::")
    (hc : after'.isSeparator "(" = after.isSeparator "(") (ls : List Lexeme) :
    j.Carries ls (referenceTail expression name after) (referenceTail expression name after')
      (·.shifted j.shift) := by
  rw [referenceTail, referenceTail, hm, hc]
  split
  · refine (carries_separator _ _ ls).bind fun _ rs => ?_
    refine (carries_identifier _ rs).bind fun function rs => ?_
    exact (carries_arguments he rs).bind fun args rs => carries_pure rs (by rfl)
  · refine (carries_fresh ls).bind fun id rs => ?_
    split
    · exact (carries_arguments he rs).bind fun args rs => carries_pure rs (by rfl)
    · exact carries_pure rs (by rfl)

theorem carries_referenceByName {l : Lexeme} (hl : l.kind = .identifier) (ls : List Lexeme) :
    j.Carries (l :: ls) (referenceByName expression) (referenceByName expression)
      (·.shifted j.shift) := by
  -- A name at the end is a variable, whatever statement begins behind it.
  intro s e s' hs hr
  refine carries_next_bind (by simp) (fun l' rs hls name name' hn hn' => ?_) s e s' hs hr
  obtain ⟨rfl, rfl⟩ := List.cons.inj hls
  rw [text_eq_of_lexeme (hn'.trans hn.symm)]
  cases ls with
  | cons r rs =>
    refine carries_peek_bind (by simp) fun r' rs' hls after after' ha ha' => ?_
    have h := ha'.trans ha.symm
    exact carries_referenceTail he _ (isSeparator_eq_of_lexeme h _) (isSeparator_eq_of_lexeme h _) _
  | nil =>
    have hcall : j.first ≠ .separator "(" := fun hj => hs.parted hj l rfl hl
    refine carries_peek_bind_nil fun after after' ha ha' => ?_
    have hne : ∀ text, after.isSeparator text = false := fun text =>
      isSeparator_eq_false fun h => by
        have hk := isEof_iff.1 ha
        simp [h, Lexeme.separator] at hk
    refine carries_referenceTail he _ ?_ ?_ []
    · rw [hne, isSeparator_eq_false (ha' ▸ j.first_ne_separator (by decide))]
    · rw [hne, isSeparator_eq_false (ha' ▸ hcall)]

theorem carries_reference {l : Lexeme} (hl : l.kind = .identifier) (ls : List Lexeme) :
    j.Carries (l :: ls) (reference expression) (reference expression) (·.shifted j.shift) := by
  have hsame : ∀ {s : ParserState σ} {us : List Lexeme}, s.Shows (l :: us) →
      SameFrom s (reference expression) (referenceByName expression) := by
    intro s us hs
    obtain ⟨t, ht, rfl⟩ := hs.answer 0 (Nat.zero_lt_succ _)
    exact sameFrom_referenceByName expression ht hl
  intro s e s' hs hr
  obtain ⟨rs, hs', htakes⟩ := carries_referenceByName he hl ls s e s' hs
    ((hsame hs.shows).run_eq hr)
  refine ⟨rs, hs', fun u hu hid => ?_⟩
  obtain ⟨u', hr', hu'⟩ := htakes u hu hid
  exact ⟨u', (hsame hu).symm.run_eq hr', hu'⟩

theorem carries_group (ls : List Lexeme) :
    j.Carries ls (group expression) (group expression) (·.shifted j.shift) :=
  (carries_separator _ _ ls).bind fun _ rs => (he rs).bind fun _ rs =>
    (carries_separator _ _ rs).bind fun _ rs => carries_pure rs (by rfl)

omit he in
theorem shifted_of_literal {t : Token} {e : Expr} (h : literal? t = some (.ok e)) (k : Nat) :
    e.shifted k = e := by
  unfold literal? at h
  split at h
  next =>
    split at h
    next n _ =>
      obtain rfl : Expr.integer n = e := by simpa using h
      rfl
    next => simp at h
  next =>
    split at h
    next d _ =>
      obtain rfl : Expr.decimal (Single.ofDecimal d) = e := by simpa using h
      rfl
    next => simp at h
  next =>
    obtain rfl : Expr.string t.text = e := by simpa using h
    rfl
  next =>
    obtain rfl : Expr.boolean (t.text == "true") = e := by simpa using h
    rfl
  next =>
    obtain rfl : Expr.null = e := by simpa using h
    rfl
  next => simp at h

theorem carries_operand (ls : List Lexeme) :
    j.Carries ls (operand expression) (operand expression) (·.shifted j.shift) := by
  rw [operand_eq]
  refine carries_peek_bind (fun _ t ht => ?_) fun l rs hls t t' hl hl' => ?_
  · have hk : t.kind = .eof := eq_of_beq ht
    have hs : t.lexeme ≠ .separator "(" := fun h => by
      simp [hk, Token.lexeme, Lexeme.separator] at h
    rw [operandOf_other _ (by simp [hk]) hs (by simp [literal?, hk])]
    exact fails_unexpected _ _
  · have hlt := hl'.trans hl.symm
    by_cases hk : t.kind = .identifier
    · rw [operandOf_identifier _ hk, operandOf_identifier _ ((kind_eq_iff_of_lexeme hlt _).2 hk),
        hls]
      exact carries_reference he (hl ▸ hk) rs
    by_cases hs : t.lexeme = .separator "("
    · rw [operandOf_group _ hs, operandOf_group _ (hlt.trans hs)]
      exact carries_group he ls
    rcases literal_of_lexeme t with hn | ⟨e, hn⟩ | ⟨kind, hn⟩
    · rw [operandOf_other _ hk hs (hn t rfl)]
      exact carries_of_fails (fails_unexpected _ _) ls
    · rw [operandOf_literal _ (hn t rfl), operandOf_literal _ (hn t' hlt)]
      refine carries_next_bind (by simp [hls]) fun _ us _ _ _ _ _ => carries_pure us ?_
      exact shifted_of_literal (hn t rfl) _
    · rw [operandOf_literal _ (hn t rfl)]
      refine carries_of_fails (.bind_right _ fun _ _ _ _ => ?_) ls
      exact run_fail_ne_ok

omit he in
theorem shifted_chained (first : Expr) (rest : List (Operator × Expr)) (k : Nat) :
    (first.chained rest).shifted k =
      (first.shifted k).chained (rest.map fun (op, e) => (op, e.shifted k)) := by
  induction rest generalizing first with
  | nil => rfl
  | cons r rest ih => exact ih (.binary r.1 first r.2)

theorem carries_chain (min : Nat) (ls : List Lexeme) :
    j.Carries ls (chain expression min) (chain expression min) (·.shifted j.shift) := by
  induction min using chain.induct generalizing ls with
  | case1 min ih =>
    rw [chain]
    have hrest : ∀ rs, j.Carries rs
        (many (tighter? min) fun op => do return (op.val, ← chain expression op.val.precedence))
        (many (tighter? min) fun op => do return (op.val, ← chain expression op.val.precedence))
        (List.map fun (op, e) => (op, e.shifted j.shift)) := by
      refine carries_many (ignoresPlace_tighter min) (fun t hl => ?_) fun op rs => ?_
      · have hk : t.kind ≠ .operator := fun hk => j.kind_first_ne_operator (hl ▸ hk)
        rw [tighter?, if_neg hk]
      · exact (ih op rs).bind fun right rs => carries_pure rs (by rfl)
    refine (carries_operand he ls).bind fun first rs => (hrest rs).bind fun rest rs => ?_
    exact carries_pure rs (shifted_chained first rest j.shift)

end Expressions

theorem carries_expression (n : Nat) (ls : List Lexeme) :
    j.Carries ls (expression n : Parser σ Expr) (expression n) (·.shifted j.shift) := by
  induction n generalizing ls with
  | zero => exact carries_of_fails fails_tooDeep ls
  | succ n ih => exact carries_chain ih 0 ls

/-! ### Statements -/

/-- Where `p` reads statements in front of `ls` and the end of input, it goes on at the seam in
place of the end: what it reads there comes behind those statements. In front of anything else it
stops. -/
def Prolongs (j : Seam) (ls : List Lexeme) (p : Parser σ (List Statement)) : Prop :=
  ∀ s ss s', s.Faces j ls → p.run s = (.ok ss, s') → ∃ rs, s'.Faces j rs ∧
    (rs ≠ [] → ∀ us id, p.Takes (rs ++ us) id [] (rs ++ us) id) ∧
    ∀ bs us id, p.Takes (rs ++ j.behind) (s'.nextId + j.shift) bs us id →
      p.Takes (ls ++ j.behind) (s.nextId + j.shift) (ss.map (·.shifted j.shift) ++ bs) us id

/-- What follows a list of statements, and is not the end of input, is carried with it. -/
theorem Prolongs.bind {p : Parser σ (List Statement)} {f : List Statement → Parser σ α}
    {f' : List Statement → Parser σ β} (hp : j.Prolongs ls p)
    (hend : ∀ ss s a s', s.Shows [.eof] → (f ss).run s ≠ (.ok a, s'))
    (hf : ∀ ss rs, j.Carries rs (f ss) (f' (ss.map (·.shifted j.shift))) g) :
    j.Carries ls (p >>= f) (p >>= f') g := by
  intro s a s'' hs hr
  obtain ⟨ss, s', hpr, hfr⟩ := run_bind_eq_ok.1 hr
  obtain ⟨rs, hs', hstop, hgo⟩ := hp s ss s' hs hpr
  have hne : rs ≠ [] := by
    rintro rfl
    exact hend ss s' a s'' hs'.shows hfr
  obtain ⟨us, hs'', ht⟩ := hf ss rs s' a s'' hs' hfr
  have hgo := hgo [] _ _ (hstop hne _ _)
  rw [List.append_nil] at hgo
  exact ⟨us, hs'', hgo.bind ht⟩

section Statements

variable {expression : Parser σ Expr} {body : Parser σ (List Statement)}
  (he : ∀ ls, j.Carries ls expression expression (·.shifted j.shift))
  (hb : ∀ ls, j.Prolongs ls body)

theorem carries_semicolon {a : α} {b : β} (hb : g a = b) (ls : List Lexeme) :
    j.Carries ls (skip? ";" >>= fun _ => (pure a : Parser σ α))
      (skip? ";" >>= fun _ => (pure b : Parser σ β)) g :=
  (carries_skip (by decide) ls).bind fun _ rs => carries_pure rs hb

theorem carries_importStatement {l : Lexeme} (ls : List Lexeme) :
    j.Carries (l :: ls) (importStatement : Parser σ Statement) importStatement
      (·.shifted j.shift) := by
  rw [importStatement_eq]
  refine carries_next_bind (by simp) fun _ rs _ _ _ _ _ => ?_
  refine carries_next_ite ?_ ?_ ?_ ?_ rs
  · exact fun _ _ h => kind_eq_iff_of_lexeme h .stringLiteral
  · exact fun _ h => isEof_eq_false_of_kind h (by decide)
  · exact fun _ => fails_unexpected _ _
  · intro rs t t' _ h
    rw [text_eq_of_lexeme h]
    split
    · exact carries_semicolon (by rfl) rs
    · exact carries_of_fails (fun _ _ _ => run_fail_ne_ok) rs

include hb in
theorem carries_functionStatement {l : Lexeme} (ls : List Lexeme) :
    j.Carries (l :: ls) (functionStatement body) (functionStatement body)
      (·.shifted j.shift) := by
  refine carries_next_bind (by simp) fun _ rs _ _ _ _ _ => ?_
  refine (carries_identifier _ rs).bind fun name rs => ?_
  refine (carries_separator _ _ rs).bind fun _ rs => (carries_separator _ _ rs).bind fun _ rs => ?_
  refine (carries_separator _ _ rs).bind fun _ rs => (hb rs).bind ?_ fun ss rs => ?_
  · intro ss s a s' hs hr
    obtain ⟨_, s₁, hr, -⟩ := run_bind_eq_ok.1 hr
    obtain ⟨t, s₂, hn, hr⟩ := run_bind_eq_ok.1 hr
    have ht : t.lexeme ≠ .separator "\x7d" := by
      simp [lexeme_of_next hs hn, Lexeme.eof, Lexeme.separator]
    rw [isSeparator_eq_false ht, if_neg Bool.false_ne_true] at hr
    exact run_unexpected_ne_ok hr
  · refine (carries_separator _ _ rs).bind fun _ rs => carries_pure rs ?_
    rw [Statement.shifted, Statement.shiftedAll_eq_map]
    rfl

theorem carries_declaredType (ls : List Lexeme) :
    j.Carries ls (declaredType : Parser σ String) declaredType id := by
  refine (carries_skip (by decide) ls).bind fun typed rs => ?_
  cases typed with
  | true => exact carries_identifier _ rs
  | false => exact carries_pure rs rfl

include he in
theorem carries_initialValue (ls : List Lexeme) :
    j.Carries ls (initialValue expression) (initialValue expression)
      (Option.map (·.shifted j.shift)) := by
  refine (carries_accept (ignoresPlace_operator "=") (fun t hl => ?_) ls).bind
    fun assigned rs => ?_
  · have hk : t.kind ≠ .operator := fun hk => j.kind_first_ne_operator (hl ▸ hk)
    simp [Token.isOperator, hk]
  · cases assigned with
    | none => exact carries_pure rs rfl
    | some _ => exact (he rs).map fun _ => rfl

include he in
theorem carries_variableStatement {l : Lexeme} (ls : List Lexeme) :
    j.Carries (l :: ls) (variableStatement expression) (variableStatement expression)
      (·.shifted j.shift) := by
  rw [variableStatement_eq]
  refine carries_next_bind (by simp) fun _ rs _ _ _ _ _ => ?_
  refine (carries_identifier _ rs).bind fun name rs => ?_
  refine (carries_declaredType rs).bind fun typeName rs => ?_
  exact (carries_initialValue he rs).bind fun init rs => carries_semicolon (by rfl) rs

include he in
theorem carries_expressionStatement (ls : List Lexeme) :
    j.Carries ls (expressionStatement expression) (expressionStatement expression)
      (·.shifted j.shift) :=
  (he ls).bind fun _ rs => carries_semicolon (by rfl) rs

include he hb in
theorem carries_statement {l : Lexeme} (ls : List Lexeme) :
    j.Carries (l :: ls) (statement expression body) (statement expression body)
      (·.shifted j.shift) := by
  rw [statement_eq]
  refine carries_peek_bind (by simp) fun l' rs _ t t' hl hl' => ?_
  have hlt := hl'.trans hl.symm
  have hk' : t'.kind = .keyword ↔ t.kind = .keyword := kind_eq_iff_of_lexeme hlt _
  by_cases hi : t.lexeme = .keyword "import"
  · rw [statementOf_import _ _ hi, statementOf_import _ _ (hlt.trans hi)]
    exact carries_importStatement ls
  by_cases hf : t.lexeme = .keyword "fn"
  · rw [statementOf_function _ _ hf, statementOf_function _ _ (hlt.trans hf)]
    exact carries_functionStatement hb ls
  by_cases hv : t.lexeme = .keyword "let"
  · rw [statementOf_variable _ _ hv, statementOf_variable _ _ (hlt.trans hv)]
    exact carries_variableStatement he ls
  by_cases hk : t.kind = .keyword
  · rw [statementOf_reserved _ _ hk hi hf hv]
    exact carries_of_fails (fun _ _ _ => run_fail_ne_ok) _
  by_cases hx : beginsExpression t = true
  · rw [statementOf_expression _ _ hk hx, statementOf_expression _ _ (mt hk'.1 hk)
      ((beginsExpression_of_lexeme hlt).trans hx)]
    exact carries_expressionStatement he _
  · rw [statementOf_other _ _ hk hx]
    exact carries_of_fails (fails_unexpected _ _) _

include hb in
theorem prolongs_statementList (n : Nat) (ls : List Lexeme) :
    j.Prolongs ls (statementList n body) := by
  intro s ss s' hs hr
  have hm := run_manyUntil_eq_ok.1 hr
  clear hr
  induction hm generalizing ls with
  | @done s s' t hp ht =>
    cases ls with
    | nil =>
      obtain ⟨-, hs', hid⟩ := shows_of_peek hs.shows hp
      refine ⟨[], hs.of_shows hs', by simp, fun bs us id h => ?_⟩
      rwa [hid] at h
    | cons l ls =>
      obtain ⟨hl, hs', hid⟩ := shows_of_peek hs.shows hp
      refine ⟨l :: ls, hs.of_shows hs', fun _ us id => ?_, fun bs us id h => ?_⟩
      · refine takes_manyUntil_nil fun t' ht' => ?_
        exact (ignoresPlace_stop t t' (ht'.trans hl.symm)).trans ht
      · rwa [hid] at h
  | @round s s₁ s₂ s' t a as hp ht hr _ ih =>
    cases ls with
    | nil =>
      have he : t.isEof = true := isEof_iff.2 ((shows_of_peek hs.shows hp).1 ▸ rfl)
      simp [he] at ht
    | cons l ls =>
      obtain ⟨hl, hs₁, hid⟩ := shows_of_peek hs.shows hp
      obtain ⟨rs, hs₂, hq⟩ := carries_statement (carries_expression n) hb ls _ _ _
        (hs.of_shows hs₁) hr
      obtain ⟨us, hs', hstop, hgo⟩ := ih rs hs₂
      refine ⟨us, hs', hstop, fun bs vs id h => ?_⟩
      refine takes_manyUntil_cons (fun t' ht' => ?_) (hid ▸ hq) (hgo bs vs id h)
      exact (ignoresPlace_stop t t' (ht'.trans hl.symm)).trans ht

theorem prolongs_statements (n : Nat) (ls : List Lexeme) :
    j.Prolongs ls (statements n : Parser σ (List Statement)) := by
  induction n generalizing ls with
  | zero => exact prolongs_statementList (fun _ _ _ _ _ hr => absurd hr (fails_tooDeep _ _ _)) 0 ls
  | succ n ih => exact prolongs_statementList ih _ ls

end Statements

end Seam

end FlatScript
