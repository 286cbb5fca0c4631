import FlatScript.Parser.Basic

namespace FlatScript.Lookahead

variable {σ : Type} [TokenSource σ] {l l' : Lookahead σ} {t u : Token} {ts us : List Token}

/-- The tokens that `next` gives one after the other, the end of input being the last of them. -/
inductive Yields : Lookahead σ → List Token → Prop
  | eof {l l' : Lookahead σ} {t : Token} (h : l.next = (.ok t, l')) (he : t.isEof = true) :
      Yields l [t]
  | token {l l' : Lookahead σ} {t : Token} {ts : List Token} (h : l.next = (.ok t, l'))
      (he : t.isEof = false) (hr : Yields l' ts) : Yields l (t :: ts)

theorem Yields.exists_eq_cons (h : l.Yields ts) : ∃ t us, ts = t :: us := by
  cases h with
  | eof => exact ⟨_, _, rfl⟩
  | token => exact ⟨_, _, rfl⟩

theorem Yields.next_eq (h : l.Yields (t :: ts)) : ∃ l', l.next = (.ok t, l') := by
  cases h with
  | eof hn _ => exact ⟨_, hn⟩
  | token hn _ _ => exact ⟨_, hn⟩

theorem next_of_yields (h : l.Yields (t :: u :: ts)) :
    ∃ l', l.next = (.ok t, l') ∧ l'.Yields (u :: ts) := by
  cases h with
  | token hn _ hr => exact ⟨_, hn, hr⟩

theorem yields_congr (h : l.next = l'.next) : l.Yields ts ↔ l'.Yields ts := by
  constructor
  · intro hy
    cases hy with
    | eof hn he => exact .eof (h ▸ hn) he
    | token hn he hr => exact .token (h ▸ hn) he hr
  · intro hy
    cases hy with
    | eof hn he => exact .eof (h ▸ hn) he
    | token hn he hr => exact .token (h ▸ hn) he hr

theorem yields_pending_cons (s : σ) :
    Yields ⟨s, t :: us⟩ ts ↔
      (t.isEof = true ∧ ts = [t]) ∨ (t.isEof = false ∧ ∃ vs, ts = t :: vs ∧ Yields ⟨s, us⟩ vs) := by
  have hn : next ⟨s, t :: us⟩ = (.ok t, ⟨s, us⟩) := rfl
  constructor
  · intro h
    cases h with
    | eof h he =>
      obtain ⟨rfl, -⟩ : t = _ ∧ _ := by simpa [hn] using h
      exact .inl ⟨he, rfl⟩
    | token h he hr =>
      obtain ⟨rfl, rfl⟩ : t = _ ∧ _ := by simpa [hn] using h
      exact .inr ⟨he, _, rfl, hr⟩
  · rintro (⟨he, rfl⟩ | ⟨he, vs, rfl, hr⟩)
    · exact .eof hn he
    · exact .token hn he hr

theorem yields_scan {s s' : σ} (h : TokenSource.scan s = (.ok t, s')) (us ts : List Token) :
    Yields ⟨s', us ++ [t]⟩ ts ↔ Yields ⟨s, us⟩ ts := by
  induction us generalizing ts with
  | nil => exact yields_congr (by simp [next, h])
  | cons u us ih => simp only [List.cons_append, yields_pending_cons, ih]

theorem yields_pull (h : l.pull = (.ok t, l')) : l'.Yields ts ↔ l.Yields ts := by
  unfold pull at h
  split at h
  next v s hs =>
    obtain ⟨rfl, rfl⟩ : v = t ∧ _ = l' := by simpa using h
    exact yields_scan hs l.pending ts
  next => simp at h

theorem yields_of_peek (h : l.peek = (.ok t, l')) : l'.Yields ts ↔ l.Yields ts := by
  unfold peek at h
  split at h
  next =>
    obtain ⟨-, rfl⟩ : _ ∧ l = l' := by simpa using h
    exact Iff.rfl
  next => exact yields_pull h

theorem yields_of_peek2 (h : l.peek2 = (.ok t, l')) : l'.Yields ts ↔ l.Yields ts := by
  unfold peek2 at h
  split at h
  next =>
    obtain ⟨-, rfl⟩ : _ ∧ l = l' := by simpa using h
    exact Iff.rfl
  next => exact yields_pull h
  next =>
    split at h
    next u m hm => exact (yields_pull h).trans (yields_pull hm)
    next => simp at h

theorem pull_of_yields (hp : l.pending = []) (h : l.Yields (t :: ts)) :
    ∃ l', l.pull = (.ok t, l') ∧ l'.pending = [t] := by
  obtain ⟨l', hn⟩ := h.next_eq
  rcases hs : TokenSource.scan l.source with ⟨e | v, s⟩
  · simp [next, hp, hs] at hn
  · obtain ⟨rfl, -⟩ : v = t ∧ _ := by simpa [next, hp, hs] using hn
    exact ⟨⟨s, [v]⟩, by simp [pull, hs, hp], rfl⟩

theorem peek_of_yields (h : l.Yields (t :: ts)) :
    ∃ l', l.peek = (.ok t, l') ∧ l'.Yields (t :: ts) := by
  have hp : ∃ l', l.peek = (.ok t, l') := by
    unfold peek
    split
    next v us hv =>
      obtain ⟨l', hn⟩ := h.next_eq
      obtain ⟨rfl, -⟩ : v = t ∧ _ := by simpa [next, hv] using hn
      exact ⟨l, rfl⟩
    next hv =>
      obtain ⟨l', hl, -⟩ := pull_of_yields hv h
      exact ⟨l', hl⟩
  obtain ⟨l', hl⟩ := hp
  exact ⟨l', hl, (yields_of_peek hl).2 h⟩

theorem peek2_of_pending (hp : l.pending = [t]) (h : l.Yields (t :: u :: ts)) :
    ∃ l', l.pull = (.ok u, l') := by
  obtain ⟨s, us⟩ := l
  obtain rfl : us = [t] := hp
  obtain ⟨m, hm, hy⟩ := next_of_yields h
  obtain rfl : ⟨s, []⟩ = m := by simpa [next] using hm
  obtain ⟨m', hm', -⟩ := pull_of_yields rfl hy
  rcases hs : TokenSource.scan s with ⟨e | v, s'⟩
  · simp [pull, hs] at hm'
  · obtain ⟨rfl, -⟩ : v = u ∧ _ := by simpa [pull, hs] using hm'
    exact ⟨⟨s', [t, v]⟩, by simp [pull, hs]⟩

theorem peek2_of_yields (h : l.Yields (t :: u :: ts)) :
    ∃ l', l.peek2 = (.ok u, l') ∧ l'.Yields (t :: u :: ts) := by
  have hp : ∃ l', l.peek2 = (.ok u, l') := by
    obtain ⟨s, pending⟩ := l
    match pending, h with
    | v :: w :: vs, h =>
      obtain ⟨m, hm, hy⟩ := next_of_yields h
      obtain ⟨rfl, rfl⟩ : v = t ∧ ⟨s, w :: vs⟩ = m := by simpa [next] using hm
      obtain ⟨m', hm'⟩ := hy.next_eq
      obtain ⟨rfl, -⟩ : w = u ∧ _ := by simpa [next] using hm'
      exact ⟨_, rfl⟩
    | [v], h =>
      obtain ⟨m, hm⟩ := h.next_eq
      obtain ⟨rfl, -⟩ : v = t ∧ _ := by simpa [next] using hm
      exact peek2_of_pending rfl h
    | [], h =>
      obtain ⟨m, hm, hmp⟩ := pull_of_yields rfl h
      obtain ⟨m', hm'⟩ := peek2_of_pending hmp ((yields_pull hm).2 h)
      exact ⟨m', by simp [peek2, hm, hm']⟩
  obtain ⟨l', hl⟩ := hp
  exact ⟨l', hl, (yields_of_peek2 hl).2 h⟩

theorem yields_of_peek_eof (h : l.peek = (.ok t, l')) (he : t.isEof = true) : l.Yields [t] := by
  have hn := next_of_peek h
  exact (yields_of_peek h).1 (.eof hn he)

theorem drain_of_error {e : LexError} (h : l.next = (.error e, l')) : l.drain.1 = .error e := by
  rw [drain]
  split
  next hn =>
    obtain ⟨rfl, -⟩ : e = _ ∧ _ := by simpa [h] using hn
    rfl
  next hn => simp [h] at hn

theorem drain_of_eof (h : l.next = (.ok t, l')) (he : t.isEof = true) : l.drain.1 = .ok [t] := by
  rw [drain]
  split
  next hn => simp [h] at hn
  next hn =>
    obtain ⟨rfl, -⟩ : t = _ ∧ _ := by simpa [h] using hn
    simp [he]

theorem drain_of_token (h : l.next = (.ok t, l')) (he : t.isEof = false) :
    l.drain.1 = l'.drain.1.map (t :: ·) := by
  rw [drain]
  split
  next hn => simp [h] at hn
  next hn =>
    obtain ⟨rfl, rfl⟩ : t = _ ∧ l' = _ := by simpa [h] using hn
    rcases hd : l'.drain with ⟨e | us, m⟩
    · simp [he, Except.map]
    · simp [he, Except.map]

theorem drain_congr (h : l.next = l'.next) : l.drain.1 = l'.drain.1 := by
  rcases hn : l'.next with ⟨e | t, m⟩
  · rw [drain_of_error hn, drain_of_error (h.trans hn)]
  · cases he : t.isEof with
    | true => rw [drain_of_eof hn he, drain_of_eof (h.trans hn) he]
    | false => rw [drain_of_token hn he, drain_of_token (h.trans hn) he]

theorem drain_of_yields (h : l.Yields ts) : l.drain.1 = .ok ts := by
  induction h with
  | eof h he => exact drain_of_eof h he
  | token h he _ ih =>
    rw [drain_of_token h he, ih]
    rfl

theorem yields_of_drain (h : l.drain.1 = .ok ts) : l.Yields ts := by
  fun_induction drain l generalizing ts with
  | case1 => simp at h
  | case2 l t l' hn he =>
    obtain rfl : [t] = ts := by simpa using h
    exact .eof hn he
  | case3 l t l' hn he _ us m hd ih =>
    obtain rfl : t :: us = ts := by simpa using h
    exact .token hn (by simpa using he) (ih (by rw [hd]))
  | case4 => simp at h

end FlatScript.Lookahead
