import FlatScript.Proofs.Batch

namespace FlatScript

variable {σ τ : Type} [TokenSource σ] [TokenSource τ] {α β γ : Type}

namespace Lookahead

variable {l : Lookahead σ} {l' : Lookahead τ} {ts us : List Token}

theorem answer_of_yields (h : l.Yields ts) (i : Nat) (hi : i < ts.length) :
    l.answer i = .ok ts[i] := by
  induction h generalizing i with
  | eof hn _ =>
    obtain rfl : i = 0 := Nat.lt_one_iff.1 hi
    exact congrArg Prod.fst hn
  | @token l m t ts hn _ _ ih =>
    cases i with
    | zero => exact congrArg Prod.fst hn
    | succ i =>
      rw [← answer_next, hn]
      exact ih i (Nat.lt_of_succ_lt_succ hi)

theorem yields_of_answer (h : l.Yields ts) (ha : ∀ i, l'.answer i = l.answer i) :
    l'.Yields ts := by
  induction h generalizing l' with
  | @eof l m t hn he =>
    have hn' : l'.next.1 = .ok t := (ha 0).trans (congrArg Prod.fst hn)
    exact .eof (Prod.ext hn' rfl) he
  | @token l m t ts hn he _ ih =>
    have hn' : l'.next.1 = .ok t := (ha 0).trans (congrArg Prod.fst hn)
    refine .token (Prod.ext hn' rfl) he (ih fun i => ?_)
    rw [answer_next, ha, ← answer_next, hn]

theorem yields_behind (h : l.Yields (us ++ ts)) (hne : ts ≠ [])
    (ha : ∀ i, l'.answer i = l.answer (us.length + i)) : l'.Yields ts := by
  induction us generalizing l with
  | nil => exact yields_of_answer h (by simpa using ha)
  | cons u us ih =>
    obtain ⟨v, vs, hv⟩ : ∃ v vs, us ++ ts = v :: vs := List.exists_cons_of_ne_nil (by simp [hne])
    rw [List.cons_append, hv] at h
    obtain ⟨m, hn, hm⟩ := next_of_yields h
    refine ih (hv ▸ hm) fun i => ?_
    rw [ha, List.length_cons, Nat.add_right_comm, ← answer_next, hn]

end Lookahead

/-- In front of the parser are the lexemes `ls`, and behind them a fault. -/
structure ParserState.Breaks (s : ParserState σ) (ls : List Lexeme) : Prop where
  proper : ∀ l ∈ ls, l.IsProper
  begins : ∀ i (hi : i < ls.length), ∃ t, s.answer i = .ok t ∧ t.lexeme = ls[i]
  fault : ∃ e, s.answer ls.length = .error e

namespace ParserState

variable {s s' : ParserState σ} {ls rs : List Lexeme} {l : Lexeme} {t : Token}

theorem Breaks.behind (h : s.Breaks (ls ++ rs)) (ha : ∀ i, s'.answer i = s.answer (ls.length + i)) :
    s'.Breaks rs where
  proper := fun l hl => h.proper l (List.mem_append_right ls hl)
  begins := fun i hi => by
    obtain ⟨t, ht, htl⟩ := h.begins (ls.length + i) (by simp [hi])
    exact ⟨t, by rw [ha, ht], by rw [htl, List.getElem_append_right (by omega)]; simp⟩
  fault := by
    obtain ⟨e, he⟩ := h.fault
    exact ⟨e, by rw [ha, ← he, List.length_append]⟩

theorem Breaks.le_length {k : Nat} (h : s.Breaks ls) (ht : ∀ i < k, ∃ t, s.answer i = .ok t) :
    k ≤ ls.length := by
  refine Nat.le_of_not_lt fun hlt => ?_
  obtain ⟨t, ht⟩ := ht _ hlt
  obtain ⟨e, he⟩ := h.fault
  rw [ht] at he
  exact nomatch he

theorem Shows.answer (h : s.Shows ls) (i : Nat) (hi : i < ls.length) :
    ∃ t, s.answer i = .ok t ∧ t.lexeme = ls[i] := by
  obtain ⟨ts, rfl, hy⟩ := h
  rw [List.length_map] at hi
  exact ⟨ts[i], Lookahead.answer_of_yields hy i hi, by rw [List.getElem_map]⟩

theorem Shows.behind (h : s.Shows (ls ++ rs)) (hne : rs ≠ [])
    (ha : ∀ i, s'.answer i = s.answer (ls.length + i)) : s'.Shows rs := by
  obtain ⟨ts, hts, hy⟩ := h
  obtain ⟨us, vs, rfl, rfl, rfl⟩ := List.map_eq_append_iff.1 hts
  refine ⟨vs, rfl, Lookahead.yields_behind hy (by simpa using hne) fun i => ?_⟩
  rw [List.length_map] at ha
  exact ha i

end ParserState

namespace Parser

/-! ### Going on -/

/-- The parser runs into a fault. -/
def Hangs (p : Parser σ α) (s : ParserState σ) : Prop := ∃ e, (p.run s).1 = .error (.lex e)

/-- The lexemes `ls` are what `p` takes, if one of the lexemes `F` is behind them. -/
def Completes (p : Parser σ α) (ls : List Lexeme) (id : NodeId) (F : Lexeme → Prop) : Prop :=
  ∃ a id', ∀ l rs, F l → p.Takes (ls ++ l :: rs) id a (l :: rs) id'

/-- Whatever is behind the lexemes `ls`, too many levels are open there. -/
def Doomed (p : Parser σ α) (ls : List Lexeme) (id : NodeId) : Prop :=
  ∀ l rs s, s.Shows (ls ++ l :: rs) → s.nextId = id →
    ∃ place, (p.run s).1 = .error (.nestingTooDeep maxNesting place)

/-- Lexemes can be put behind the lexemes `ls` such that `p` takes them all, unless too many levels
are open. -/
def Steerable (p : Parser σ α) (ls : List Lexeme) (id : NodeId) (F : Lexeme → Prop) : Prop :=
  (∃ ws, (∀ w ∈ ws, w.IsProper) ∧ p.Completes (ls ++ ws) id F) ∨ p.Doomed ls id

def Steers (s : ParserState σ) (ls : List Lexeme) (p : Parser σ α) (F : Lexeme → Prop) : Prop :=
  s.Breaks ls → p.Hangs s → p.Steerable ls s.nextId F

variable {s s' s₁ : ParserState σ} {p : Parser σ α} {f : α → Parser σ β} {ls rs ws : List Lexeme}
  {id id' : NodeId} {F G : Lexeme → Prop} {a : α} {t : Token}

theorem not_hangs_of_run (h : p.run s = (.ok a, s')) : ¬ p.Hangs s := by
  rintro ⟨e, he⟩
  rw [h] at he
  exact nomatch he

theorem not_hangs_complaint (c : Complaint) (t : Token) :
    ¬ (fail (c.about t) : Parser σ α).Hangs s := by
  rintro ⟨e, he⟩
  exact c.about_ne_lex t e (Except.error.inj he)

theorem hangs_bind (h : (p >>= f).Hangs s) :
    p.Hangs s ∨ ∃ a s₁, p.run s = (.ok a, s₁) ∧ (f a).Hangs s₁ := by
  obtain ⟨e, he⟩ := h
  rw [run_bind] at he
  split at he
  next a s₁ hr => exact .inr ⟨a, s₁, hr, e, he⟩
  next e' s₁ hr => exact .inl ⟨e, by rw [hr]; exact congrArg Except.error (Except.error.inj he)⟩

theorem completes_pure (a : α) (id : NodeId) (F : Lexeme → Prop) :
    (pure a : Parser σ α).Completes [] id F :=
  ⟨a, id, fun _ _ _ => takes_pure _ _ _⟩

theorem Completes.bind (h : p.Completes ls id G) (hf : ∀ a id', (f a).Completes ws id' F)
    (hG : ∀ l, F l → G (ws.headD l)) : (p >>= f).Completes (ls ++ ws) id F := by
  obtain ⟨a, id', hp⟩ := h
  obtain ⟨b, id'', hb⟩ := hf a id'
  refine ⟨b, id'', fun l rs hl => ?_⟩
  obtain ⟨w, vs, hw, hG⟩ : ∃ w vs, ws ++ l :: rs = w :: vs ∧ G w := by
    cases ws with
    | nil => exact ⟨l, rs, rfl, hG l hl⟩
    | cons w ws => exact ⟨w, ws ++ l :: rs, rfl, hG l hl⟩
  have hb := hb l rs hl
  rw [hw] at hb
  rw [List.append_assoc, hw]
  exact (hp w vs hG).bind hb

theorem Completes.bind_pure (h : p.Completes ls id F) (g : α → β) :
    (p >>= fun a => pure (g a)).Completes ls id F := by
  have hb := h.bind (fun a id => completes_pure (g a) id F) fun _ hl => hl
  rwa [List.append_nil] at hb

theorem Doomed.bind (h : p.Doomed ls id) (f : α → Parser σ β) : (p >>= f).Doomed ls id := by
  intro l rs s hs hid
  obtain ⟨place, hp⟩ := h l rs s hs hid
  exact ⟨place, fst_bind_of_error hp f⟩

theorem Steerable.of_completes (ws : List Lexeme) (hw : ∀ w ∈ ws, w.IsProper)
    (h : p.Completes (ls ++ ws) id F) : p.Steerable ls id F := .inl ⟨ws, hw, h⟩

theorem Steerable.bind_left (h : p.Steerable ls id G) (hw : ∀ w ∈ ws, w.IsProper)
    (hf : ∀ a id', (f a).Completes ws id' F) (hG : ∀ l, F l → G (ws.headD l)) :
    (p >>= f).Steerable ls id F := by
  obtain ⟨vs, hv, hp⟩ | hp := h
  · refine .inl ⟨vs ++ ws, List.forall_mem_append.2 ⟨hv, hw⟩, ?_⟩
    rw [← List.append_assoc]
    exact hp.bind hf hG
  · exact .inr (hp.bind f)

theorem Steerable.congr {q : Parser σ α} (h : p.Steerable ls id F)
    (hs : ∀ s us, s.Shows (ls ++ us) → SameFrom s p q) : q.Steerable ls id F := by
  obtain ⟨ws, hw, a, id', hp⟩ | hd := h
  · refine .inl ⟨ws, hw, a, id', fun l us hl s hsh hid => ?_⟩
    obtain ⟨s', hr, hs'⟩ := hp l us hl s hsh hid
    rw [List.append_assoc] at hsh
    exact ⟨s', (hs s _ hsh).run_eq hr, hs'⟩
  · refine .inr fun l us s hsh hid => ?_
    obtain ⟨place, hr⟩ := hd l us s hsh hid
    exact ⟨place, by rw [← (hs s _ hsh).fst_eq, hr]⟩

def TakesBefore (p : Parser σ α) (ls : List Lexeme) (id : NodeId) (a : α) (rs : List Lexeme)
    (id' : NodeId) : Prop :=
  ∀ vs, vs ≠ [] → rs <+: vs → p.Takes (ls ++ vs) id a vs id'

theorem Steerable.bind_right (h : p.TakesBefore ls id a rs id') (hf : (f a).Steerable rs id' F) :
    (p >>= f).Steerable (ls ++ rs) id F := by
  obtain ⟨ws, hw, b, id'', hb⟩ | hd := hf
  · refine .inl ⟨ws, hw, b, id'', fun l us hl => ?_⟩
    have hp := h (rs ++ ws ++ l :: us) (by simp) ⟨ws ++ l :: us, by simp⟩
    have hb := hp.bind (hb l us hl)
    simpa using hb
  · refine .inr fun l us s hs hid => ?_
    rw [List.append_assoc] at hs
    obtain ⟨s₁, hr, hs₁, hid₁⟩ := h (rs ++ l :: us) (by simp) ⟨l :: us, rfl⟩ s hs hid
    rw [run_bind, hr]
    exact hd l us s₁ hs₁ hid₁

theorem AgreesAs.takesBefore {k : Nat} (h : AgreesAs s p p k (.accept a id'))
    (hs : s.Breaks (ls ++ rs)) (hk : ls.length = k) : p.TakesBefore ls s.nextId a rs id' := by
  subst hk
  rintro vs hne ⟨us, rfl⟩ s' hs' hid
  have halike : s.AlikeTo s' ls.length := fun i hi => by
    obtain ⟨t, ht, htl⟩ := hs.begins i (by rw [List.length_append]; omega)
    obtain ⟨t', ht', htl'⟩ := hs'.answer i (by rw [List.length_append]; omega)
    refine ⟨t, t', ht, ht', ?_⟩
    rw [htl, htl', List.getElem_append_left hi, List.getElem_append_left hi]
  have hcov : (Verdict.accept a id').Covers (s.answer ls.length) (s'.answer ls.length) := by
    cases rs with
    | nil =>
      obtain ⟨e, he⟩ := hs.fault
      rw [List.append_nil] at he
      rw [he]
      trivial
    | cons r rs =>
      obtain ⟨t, ht, htl⟩ := hs.begins ls.length (by simp)
      obtain ⟨t', ht', htl'⟩ := hs'.answer ls.length (by simp)
      have hl : t'.lexeme = t.lexeme := by rw [htl, htl']; simp
      rw [ht, ht']
      exact hl
  obtain ⟨s₁, hr, hid₁, ha⟩ := h.agrees s' hid halike hcov
  exact ⟨s₁, hr, hs'.behind hne ha, hid₁⟩

/-- A parser that is followed by another one runs into the fault, or it has a result and the other
one runs into the fault. -/
theorem Steers.bind_of (ha : Agrees s p p)
    (hl : s.Breaks ls → p.Hangs s → (p >>= f).Steerable ls s.nextId F)
    (hr : ∀ a s₁ ls₁ ls₂, ls = ls₁ ++ ls₂ → p.run s = (.ok a, s₁) →
      p.TakesBefore ls₁ s.nextId a ls₂ s₁.nextId → Steers s₁ ls₂ (f a) F) :
    Steers s ls (p >>= f) F := by
  intro hs hh
  rcases hangs_bind hh with hp | ⟨a, s₁, hr₁, hf⟩
  · exact hl hs hp
  · obtain ⟨k, ha, hs₁⟩ := ha.exists_accept hr₁
    have hk : (ls.take k).length = k := by
      rw [List.length_take, Nat.min_eq_left (hs.le_length ha.taken)]
    have hls : ls = ls.take k ++ ls.drop k := (List.take_append_drop k ls).symm
    rw [hls] at hs ⊢
    have ht := ha.takesBefore hs hk
    have hb : s₁.Breaks (ls.drop k) := hs.behind (by rwa [hk])
    exact .bind_right ht (hr a s₁ _ _ hls hr₁ ht hb hf)

theorem Steers.bind (ws : List Lexeme) (ha : Agrees s p p) (hp : Steers s ls p G)
    (hw : ∀ w ∈ ws, w.IsProper) (hf : ∀ a id', (f a).Completes ws id' F)
    (hG : ∀ l, F l → G (ws.headD l))
    (hr : ∀ a s₁ ls', p.run s = (.ok a, s₁) → Steers s₁ ls' (f a) F) :
    Steers s ls (p >>= f) F :=
  .bind_of ha (fun hs hh => (hp hs hh).bind_left hw hf hG) fun a s₁ _ ls₂ _ h _ => hr a s₁ ls₂ h

theorem steers_pure (a : α) : Steers s ls (pure a) F :=
  fun _ hh => absurd hh (not_hangs_of_run rfl)

theorem Steers.bind_pure (ha : Agrees s p p) (hp : Steers s ls p F) (g : α → β) :
    Steers s ls (p >>= fun a => pure (g a)) F :=
  .bind [] ha hp (by simp) (fun a id => completes_pure (g a) id F) (fun _ hl => hl)
    fun a _ _ _ => steers_pure (g a)

theorem steers_fresh_bind {f : NodeId → Parser σ β} (hf : ∀ id s₁ ls, Steers s₁ ls (f id) F) :
    Steers s ls (fresh >>= f) F :=
  .bind_of (agrees_fresh s) (fun _ hh => absurd hh (not_hangs_of_run rfl))
    fun id s₁ _ ls₂ _ _ _ => hf id s₁ ls₂

/-! ### Tokens -/

theorem steers_look_bind {look : Parser σ Token} {w : Nat} {f : Token → Parser σ β}
    (hw : look.Looks w) (hn : ls = [] → (look >>= f).Steerable [] s.nextId F)
    (hf : ∀ t s₁ rs, ls = t.lexeme :: rs → look.run s = (.ok t, s₁) → (f t).Hangs s₁ →
      (∀ t', t'.lexeme = t.lexeme → f t' = f t) ∧ Steers s₁ ((t.lexeme :: rs).drop w) (f t) F) :
    Steers s ls (look >>= f) F := by
  intro hs hh
  cases ls with
  | nil => exact hn rfl
  | cons l rs =>
    obtain ⟨t, ht, rfl⟩ := hs.begins 0 (Nat.zero_lt_succ _)
    obtain ⟨s₁, hr, hid, ha⟩ := hw.exists_run ht
    have hk : ((t.lexeme :: rs).take w).length = w :=
      List.length_take_of_le (Nat.le_trans hw.1 (Nat.le_add_left 1 _))
    have hls : t.lexeme :: rs = (t.lexeme :: rs).take w ++ (t.lexeme :: rs).drop w :=
      (List.take_append_drop w _).symm
    -- In front of every other token with that lexeme, the same is done with what is behind.
    have hlook : ∀ us s', s'.Shows (t.lexeme :: rs ++ us) → us ≠ [] → ∃ t' s₂,
        t'.lexeme = t.lexeme ∧ look.run s' = (.ok t', s₂) ∧ s₂.nextId = s'.nextId ∧
          s₂.Shows ((t.lexeme :: rs).drop w ++ us) := by
      intro us s' hs' hne
      obtain ⟨t', ht', hl'⟩ := hs'.answer 0 (Nat.zero_lt_succ _)
      obtain ⟨s₂, hr', hid', ha'⟩ := hw.exists_run ht'
      rw [hls, List.append_assoc] at hs'
      exact ⟨t', s₂, hl', hr', hid', hs'.behind (by simp [hne]) (by rwa [hk])⟩
    have hft : (f t).Hangs s₁ := by rwa [Hangs, run_bind, hr] at hh
    obtain ⟨hl, hst⟩ := hf t s₁ rs rfl hr hft
    have hb : s₁.Breaks ((t.lexeme :: rs).drop w) := by
      rw [hls] at hs
      exact hs.behind (by rwa [hk])
    obtain ⟨ws, hw, b, id', hb⟩ | hd := hst hb hft
    · refine .inl ⟨ws, hw, b, id', fun l us hF s' hs' hid' => ?_⟩
      rw [List.append_assoc] at hs'
      obtain ⟨t', s₂, ht', hr', hid₂, hs₂⟩ := hlook _ s' hs' (by simp)
      rw [← List.append_assoc] at hs₂
      have h := hb l us hF s₂ hs₂ (hid₂.trans (hid'.trans hid.symm))
      rw [← hl t' ht'] at h
      rwa [run_bind, hr']
    · refine .inr fun l us s' hs' hid' => ?_
      obtain ⟨t', s₂, ht', hr', hid₂, hs₂⟩ := hlook _ s' hs' (by simp)
      have h := hd l us s₂ hs₂ (hid₂.trans (hid'.trans hid.symm))
      rw [← hl t' ht'] at h
      rwa [run_bind, hr']

theorem completes_separator_bind {text : String} {expected : Expectation} {f : Unit → Parser σ β}
    (h : (f ()).Completes ws id F) :
    (separator text expected >>= f).Completes (.separator text :: ws) id F := by
  obtain ⟨b, id', h⟩ := h
  exact ⟨b, id', fun l rs hl => (takes_separator _ _ _ _).bind (h l rs hl)⟩

theorem completes_identifier_bind {expected : Expectation} {f : String → Parser σ β} (name : String)
    (h : (f name).Completes ws id F) :
    (identifier expected >>= f).Completes (.identifier name :: ws) id F := by
  obtain ⟨b, id', h⟩ := h
  exact ⟨b, id', fun l rs hl => (takes_identifier _ _ _ _).bind (h l rs hl)⟩

theorem steers_separator_bind {text : String} {expected : Expectation} {f : Unit → Parser σ β}
    (hn : ls = [] → (separator text expected >>= f).Steerable [] s.nextId F)
    (hf : ∀ s₁ rs, ls = .separator text :: rs → Steers s₁ rs (f ()) F) :
    Steers s ls (separator text expected >>= f) F := by
  have he : separator text expected >>= f = next >>= fun t =>
      if t.isSeparator text then f () else unexpected expected t := by
    rw [separator, bind_assoc]
    congr
    funext t
    rw [ite_bind]
    rfl
  rw [he] at hn ⊢
  refine steers_look_bind looks_next hn fun t s₁ rs hls _ hh => ?_
  by_cases ht : t.isSeparator text = true
  · refine ⟨fun t' h => by simp only [isSeparator_eq_of_lexeme h, if_pos ht], ?_⟩
    rw [if_pos ht]
    exact hf s₁ rs (by rw [hls, isSeparator_iff.1 ht])
  · rw [if_neg ht] at hh
    exact absurd hh (not_hangs_complaint (.unexpected expected) t)

theorem completes_closing (text : String) (expected : Expectation) (a : α) (id : NodeId)
    (F : Lexeme → Prop) :
    (separator text expected >>= fun _ => pure a : Parser σ α).Completes [.separator text] id F :=
  completes_separator_bind (completes_pure a id F)

theorem steers_closing {text : String} (hp : ∀ w ∈ [Lexeme.separator text], w.IsProper)
    (expected : Expectation) (a : α) (s : ParserState σ) (ls : List Lexeme) (F : Lexeme → Prop) :
    Steers s ls (separator text expected >>= fun _ => pure a) F :=
  steers_separator_bind (fun _ => .of_completes _ hp (completes_closing text expected a _ F))
    fun _ _ _ => steers_pure a

theorem steers_identifier_bind {expected : Expectation} {f : String → Parser σ β}
    (hn : ls = [] → (identifier expected >>= f).Steerable [] s.nextId F)
    (hf : ∀ name s₁ rs, ls = .identifier name :: rs → Steers s₁ rs (f name) F) :
    Steers s ls (identifier expected >>= f) F := by
  have he : identifier expected >>= f = next >>= fun t =>
      if t.kind = .identifier then f t.text else unexpected expected t := by
    rw [identifier, bind_assoc]
    congr
    funext t
    rw [ite_bind]
    rfl
  rw [he] at hn ⊢
  refine steers_look_bind looks_next hn fun t s₁ rs hls _ hh => ?_
  by_cases ht : t.kind = .identifier
  · refine ⟨fun t' h => ?_, ?_⟩
    · rw [text_eq_of_lexeme h, if_pos ht, if_pos ((kind_eq_iff_of_lexeme h _).2 ht)]
    · rw [if_pos ht]
      exact hf t.text s₁ rs (by rw [hls, Token.lexeme, ht]; rfl)
  · rw [if_neg ht] at hh
    exact absurd hh (not_hangs_complaint (.unexpected expected) t)

theorem eq_nil_of_hangs_accept {pick : Token → Option γ} (hs : s.Breaks ls)
    (hh : (accept? pick).Hangs s) : ls = [] := by
  cases ls with
  | nil => rfl
  | cons l rs =>
    obtain ⟨t, ht, -⟩ := hs.begins 0 (Nat.zero_lt_succ _)
    obtain ⟨s₁, hp, -, ha⟩ := looks_peek.exists_run ht
    obtain ⟨s₂, hn, -⟩ := looks_next.exists_run (s := s₁) ((ha 0).trans ht)
    have hr : ∃ r s', (accept? pick).run s = (.ok r, s') := by
      simp only [accept?, run_bind, hp]
      split
      · exact ⟨_, _, rfl⟩
      · split
        · exact ⟨_, _, rfl⟩
        · rw [run_bind, hn]
          exact ⟨_, _, rfl⟩
    obtain ⟨r, s', hr⟩ := hr
    exact absurd hh (not_hangs_of_run hr)

theorem eq_nil_of_hangs_skip {text : String} (hs : s.Breaks ls) (hh : (skip? text).Hangs s) :
    ls = [] := by
  rcases hangs_bind hh with hh | ⟨r, s₁, -, hh⟩
  · exact eq_nil_of_hangs_accept hs hh
  · exact absurd hh (not_hangs_of_run rfl)

theorem steers_tooDeep : Steers s ls (tooDeep : Parser σ α) F := by
  refine steers_look_bind looks_peek (fun _ => .inr ?_) fun t s₁ rs _ _ hh => ?_
  · intro l rs s' hs' _
    obtain ⟨t, s₁, -, hr, -⟩ := run_peek_of_shows hs'
    rw [run_bind, hr]
    exact ⟨t.location, rfl⟩
  · exact absurd hh (not_hangs_complaint .tooDeep t)

theorem completes_many {pick : Token → Option γ} (g : γ → Parser σ α)
    (hF : ∀ l, F l → ∀ t, t.lexeme = l → pick t = none) (id : NodeId) :
    (many pick g).Completes [] id F :=
  ⟨[], id, fun l _ hl => takes_many_nil (takes_accept_none (hF l hl))⟩

theorem steers_many {pick : Token → Option γ} {g : γ → Parser σ α} {G : γ → Lexeme → Prop}
    (hpick : IgnoresPlace pick) (ha : ∀ c s, Agrees s (g c) (g c))
    (hg : ∀ c s ls, Steers s ls (g c) (G c)) (hF : ∀ l, F l → ∀ t, t.lexeme = l → pick t = none)
    (hG : ∀ c l, F l → G c l) (s : ParserState σ) (ls : List Lexeme) :
    Steers s ls (many pick g) F := by
  have hc := completes_many g hF
  induction hn : s.tokens.size using Nat.strongRecOn generalizing s ls with
  | _ n ih =>
    rw [many_eq]
    refine .bind_of (agrees_accept hpick s) (fun hs hh => ?_) fun r s₁ _ ls₂ _ hr _ => ?_
    · obtain rfl := eq_nil_of_hangs_accept hs hh
      rw [← many_eq]
      exact .of_completes [] (by simp) (hc _)
    · cases r with
      | none => exact steers_pure []
      | some c =>
        refine .bind [] (ha c s₁) (hg c s₁ ls₂) (by simp) (fun a id => (hc id).bind_pure _) (hG c)
          fun a s₂ ls₃ hr' => ?_
        have hlt : s₂.tokens.size < n :=
          hn ▸ Nat.lt_of_le_of_lt (size_of_run hr') (size_accept_lt hr)
        exact .bind_pure (agrees_many hpick ha s₂) (ih _ hlt s₂ ls₃ rfl) _

end Parser

end FlatScript
