import FlatScript.Lexer

namespace FlatScript

namespace Lookahead

variable {σ : Type} [TokenSource σ]

inductive Call
  | next
  | peek
  | peek2
deriving DecidableEq, Repr

abbrev Answer := Except LexError Token

def call (l : Lookahead σ) : Call → Answer × Lookahead σ
  | .next => l.next
  | .peek => l.peek
  | .peek2 => l.peek2

def calls (l : Lookahead σ) : List Call → List (Call × Answer) × Lookahead σ
  | [] => ([], l)
  | c :: cs =>
    let (answer, l) := l.call c
    let (answers, l) := l.calls cs
    ((c, answer) :: answers, l)

/-- Takes one token or fault after the other, `k` in all, and never looks ahead. -/
def plain (l : Lookahead σ) (k : Nat) : List (Call × Answer) × Lookahead σ :=
  l.calls (List.replicate k .next)

def taken (answers : List (Call × Answer)) : List Token :=
  answers.filterMap fun
    | (.next, .ok t) => some t
    | _ => none

def faults (answers : List (Call × Answer)) : List LexError :=
  answers.filterMap fun
    | (_, .error e) => some e
    | _ => none

/-- What a source gives while a call is made: tokens, and behind them the fault that is the answer,
if there is one. -/
def met (answer : Answer) (ts : List Token) : List Answer :=
  ts.map .ok ++
    match answer with
    | .ok _ => []
    | .error e => [.error e]

/-- Calls to the buffer `fresh` have led to the answers and the buffer `reached`, and have read its
source as far as taking `k` tokens or faults does: the tokens taken and those that wait are the
tokens among these, and the faults answered are the faults among these. -/
structure Follows (fresh : Lookahead σ) (reached : List (Call × Answer) × Lookahead σ) (k : Nat) :
    Prop where
  source : reached.2.source = (fresh.plain k).2.source
  taken : taken reached.1 ++ reached.2.pending = taken (fresh.plain k).1
  faults : faults reached.1 = faults (fresh.plain k).1

/-- Behind `k` tokens or faults of the buffer `fresh`, the call `c` to the buffer `l` makes the
source give the tokens `ts`, and no fault but the one that it answers; none that waits is lost. -/
structure ReadsOn (fresh : Lookahead σ) (k : Nat) (l : Lookahead σ) (c : Call) (ts : List Token) :
    Prop where
  source : (l.call c).2.source = (fresh.plain (k + (met (l.call c).1 ts).length)).2.source
  answers : (fresh.plain (k + (met (l.call c).1 ts).length)).1 =
    (fresh.plain k).1 ++ (met (l.call c).1 ts).map (Call.next, ·)
  pending : taken [(c, (l.call c).1)] ++ (l.call c).2.pending = l.pending ++ ts

/-- What a buffer shows waits in it, and is what it gives, however often it is looked at before. -/
structure ShowsNext (l : Lookahead σ) : Prop where
  peek : ∀ t, l.peek.1 = .ok t → l.peek.2.pending[0]? = some t ∧
    ∀ looks, Call.next ∉ looks → (l.peek.2.calls looks).2.next.1 = .ok t
  peek2 : ∀ t, l.peek2.1 = .ok t → l.peek2.2.pending[1]? = some t ∧
    ∀ looks looks', Call.next ∉ looks → Call.next ∉ looks' →
      ∃ u, (l.peek2.2.calls looks).2.next.1 = .ok u ∧
        ((l.peek2.2.calls looks).2.next.2.calls looks').2.next.1 = .ok t

/-! ### What a source gives -/

/-- One scan of the source `s` after the other gives `rs` and leaves the source `s'`. -/
inductive Scans : σ → List Answer → σ → Prop
  | nil (s : σ) : Scans s [] s
  | cons {s s' s'' : σ} {r : Answer} {rs : List Answer} (h : TokenSource.scan s = (r, s'))
      (hs : Scans s' rs s'') : Scans s (r :: rs) s''

variable {s s' s'' : σ} {rs rs' : List Answer} {l : Lookahead σ} {c : Call}
  {answers answers' : List (Call × Answer)}

theorem Scans.append (h : Scans s rs s') (h' : Scans s' rs' s'') : Scans s (rs ++ rs') s'' := by
  induction h with
  | nil => exact h'
  | cons hr _ ih => exact .cons hr (ih h')

theorem Scans.single {r : Answer} (h : TokenSource.scan s = (r, s')) : Scans s [r] s' :=
  .cons h (.nil s')

theorem Scans.plain (h : Scans s rs s') :
    (⟨s, []⟩ : Lookahead σ).plain rs.length = (rs.map (Call.next, ·), ⟨s', []⟩) := by
  induction h with
  | nil => rfl
  | cons hr _ ih =>
    simp only [Lookahead.plain] at ih
    simp [Lookahead.plain, List.replicate_succ, calls, call, next, hr, ih]

@[simp] theorem taken_append : taken (answers ++ answers') = taken answers ++ taken answers' :=
  List.filterMap_append

@[simp] theorem faults_append : faults (answers ++ answers') = faults answers ++ faults answers' :=
  List.filterMap_append

theorem taken_map_ok (ts : List Token) : taken (ts.map ((Call.next, ·) ∘ .ok)) = ts := by
  simp [taken, Function.comp_def]

theorem faults_map_ok (ts : List Token) : faults (ts.map ((Call.next, ·) ∘ .ok)) = [] := by
  simp [faults]

theorem taken_met (answer : Answer) (ts : List Token) :
    taken ((met answer ts).map (Call.next, ·)) = ts := by
  have hts := taken_map_ok ts
  cases answer with
  | ok => simp [met, hts]
  | error e =>
    have he : taken [(Call.next, .error e)] = [] := rfl
    simp [met, hts, he]

theorem faults_met (c : Call) (answer : Answer) (ts : List Token) :
    faults ((met answer ts).map (Call.next, ·)) = faults [(c, answer)] := by
  have hts := faults_map_ok ts
  cases answer with
  | ok t =>
    have ht : faults [(c, .ok t)] = [] := rfl
    simp [met, hts, ht]
  | error e =>
    have he : ∀ c, faults [(c, .error e)] = [e] := fun _ => rfl
    simp [met, hts, he]

theorem plain_succ (s : σ) (k : Nat) :
    ((⟨s, []⟩ : Lookahead σ).plain (k + 1)).2 =
      ((⟨(TokenSource.scan s).2, []⟩ : Lookahead σ).plain k).2 := rfl

/-! ### One call -/

theorem scans_pull (l : Lookahead σ) :
    ∃ ts, Scans l.source (met l.pull.1 ts) l.pull.2.source ∧ l.pull.2.pending = l.pending ++ ts := by
  rcases h : TokenSource.scan l.source with ⟨e | t, s⟩
  · exact ⟨[], by simpa [pull, h, met] using .single h, by simp [pull, h]⟩
  · exact ⟨[t], by simpa [pull, h, met] using .single h, by simp [pull, h]⟩

theorem scans_next (l : Lookahead σ) :
    ∃ ts, Scans l.source (met l.next.1 ts) l.next.2.source ∧
      taken [(.next, l.next.1)] ++ l.next.2.pending = l.pending ++ ts := by
  cases hp : l.pending with
  | cons t ts => exact ⟨[], by simp [next, hp, met, Scans.nil], by simp [next, hp, taken]⟩
  | nil =>
    rcases h : TokenSource.scan l.source with ⟨e | t, s⟩
    · exact ⟨[], by simpa [next, hp, h, met] using .single h, by simp [next, hp, h, taken]⟩
    · exact ⟨[t], by simpa [next, hp, h, met] using .single h, by simp [next, hp, h, taken]⟩

theorem scans_peek (l : Lookahead σ) :
    ∃ ts, Scans l.source (met l.peek.1 ts) l.peek.2.source ∧ l.peek.2.pending = l.pending ++ ts := by
  unfold peek
  split
  · exact ⟨[], .nil _, by simp⟩
  · exact scans_pull l

theorem scans_peek2 (l : Lookahead σ) :
    ∃ ts, Scans l.source (met l.peek2.1 ts) l.peek2.2.source ∧
      l.peek2.2.pending = l.pending ++ ts := by
  unfold peek2
  split
  · exact ⟨[], .nil _, by simp⟩
  · exact scans_pull l
  · obtain ⟨ts, hs, hp⟩ := scans_pull l
    -- When the second scan meets a fault, the token of the first one waits all the same.
    split
    next t l' hl =>
      rw [hl] at hs hp
      obtain ⟨us, hs', hp'⟩ := scans_pull l'
      refine ⟨ts ++ us, ?_, by rw [hp', hp, List.append_assoc]⟩
      simpa [met] using hs.append hs'
    next e l' hl =>
      rw [hl] at hs hp
      exact ⟨ts, hs, hp⟩

theorem scans_call (l : Lookahead σ) (c : Call) :
    ∃ ts, Scans l.source (met (l.call c).1 ts) (l.call c).2.source ∧
      taken [(c, (l.call c).1)] ++ (l.call c).2.pending = l.pending ++ ts := by
  cases c with
  | next => exact scans_next l
  | peek => exact scans_peek l
  | peek2 => exact scans_peek2 l

theorem length_pending_pull_le (l : Lookahead σ) :
    l.pull.2.pending.length ≤ l.pending.length + 1 := by
  unfold pull
  split <;> simp

theorem length_pending_peek_le (h : l.pending.length ≤ 2) : l.peek.2.pending.length ≤ 2 := by
  unfold peek
  split
  next => exact h
  next hp =>
    have := length_pending_pull_le l
    simp only [hp, List.length_nil] at this
    omega

theorem length_pending_peek2_le (h : l.pending.length ≤ 2) : l.peek2.2.pending.length ≤ 2 := by
  unfold peek2
  split
  next => exact h
  next hp =>
    have := length_pending_pull_le l
    simpa [hp] using this
  next hp =>
    have h₁ := length_pending_pull_le l
    split
    next t l' hl =>
      have h₂ := length_pending_pull_le l'
      simp only [hl, hp, List.length_nil] at h₁
      omega
    next e l' hl =>
      simp only [hl, hp, List.length_nil] at h₁
      exact Nat.le_succ_of_le h₁

theorem length_pending_call_le (h : l.pending.length ≤ 2) (c : Call) :
    (l.call c).2.pending.length ≤ 2 := by
  cases c with
  | next =>
    cases hp : l.pending with
    | nil => simp [call, next, hp]
    | cons t ts =>
      simp only [hp, List.length_cons] at h
      simp only [call, next, hp]
      omega
  | peek => exact length_pending_peek_le h
  | peek2 => exact length_pending_peek2_le h

/-! ### Any number of calls -/

theorem length_pending_calls_le (h : l.pending.length ≤ 2) (cs : List Call) :
    (l.calls cs).2.pending.length ≤ 2 := by
  induction cs generalizing l with
  | nil => exact h
  | cons c cs ih => exact ih (length_pending_call_le h c)

theorem scans_calls (l : Lookahead σ) (cs : List Call) :
    ∃ rs, Scans l.source rs (l.calls cs).2.source ∧
      taken (l.calls cs).1 ++ (l.calls cs).2.pending =
        l.pending ++ taken (rs.map (Call.next, ·)) ∧
      faults (l.calls cs).1 = faults (rs.map (Call.next, ·)) := by
  -- The invariant is the law of conservation: what waited and what was read since are what has been
  -- taken and what waits.
  induction cs generalizing l with
  | nil => exact ⟨[], .nil _, by simp [calls, taken], rfl⟩
  | cons c cs ih =>
    obtain ⟨ts, hs, hp⟩ := scans_call l c
    obtain ⟨rs, hs', hp', hf⟩ := ih (l.call c).2
    have ht : (l.calls (c :: cs)).1 = [(c, (l.call c).1)] ++ ((l.call c).2.calls cs).1 := rfl
    refine ⟨met (l.call c).1 ts ++ rs, hs.append hs', ?_, ?_⟩
    · calc taken (l.calls (c :: cs)).1 ++ (l.calls (c :: cs)).2.pending
          = taken [(c, (l.call c).1)] ++ (taken ((l.call c).2.calls cs).1 ++
              ((l.call c).2.calls cs).2.pending) := by
            rw [ht, taken_append, List.append_assoc]
            rfl
        _ = l.pending ++ ts ++ taken (rs.map (Call.next, ·)) := by
            rw [hp', ← List.append_assoc, hp]
        _ = l.pending ++ taken ((met (l.call c).1 ts ++ rs).map (Call.next, ·)) := by
            rw [List.map_append, taken_append, taken_met, List.append_assoc]
    · rw [ht, faults_append, List.map_append, faults_append, faults_met c, hf]

/-! ### Looking -/

theorem pending_prefix_call (l : Lookahead σ) (hc : c ≠ .next) :
    l.pending <+: (l.call c).2.pending := by
  obtain ⟨ts, -, hp⟩ := scans_call l c
  have ht : taken [(c, (l.call c).1)] = [] := by
    cases c with
    | next => exact absurd rfl hc
    | peek | peek2 => rfl
  rw [ht, List.nil_append] at hp
  exact ⟨ts, hp.symm⟩

theorem pending_prefix_calls (l : Lookahead σ) {looks : List Call} (h : Call.next ∉ looks) :
    l.pending <+: (l.calls looks).2.pending := by
  induction looks generalizing l with
  | nil => exact List.prefix_rfl
  | cons c cs ih =>
    rw [List.mem_cons, not_or] at h
    exact (pending_prefix_call l (Ne.symm h.1)).trans (ih _ h.2)

theorem next_of_pending {t : Token} {ts : List Token} (h : l.pending = t :: ts) :
    l.next = (.ok t, { l with pending := ts }) := by
  simp [next, h]

theorem next_calls_of_pending {t : Token} {ts : List Token} (h : l.pending = t :: ts)
    {looks : List Call} (hl : Call.next ∉ looks) :
    ∃ us, (l.calls looks).2.next = (.ok t, { (l.calls looks).2 with pending := ts ++ us }) := by
  obtain ⟨us, hus⟩ := pending_prefix_calls l hl
  rw [h, List.cons_append] at hus
  exact ⟨us, next_of_pending hus.symm⟩

theorem pending_of_peek2 {l l' : Lookahead σ} {t : Token} (h : l.peek2 = (.ok t, l')) :
    ∃ u ts, l'.pending = u :: t :: ts := by
  have hpull : ∀ {l l' : Lookahead σ} {t : Token}, l.pull = (.ok t, l') →
      l'.pending = l.pending ++ [t] := by
    intro l l' t h
    unfold pull at h
    split at h
    next v s _ =>
      obtain ⟨rfl, rfl⟩ : v = t ∧ _ = l' := by simpa using h
      rfl
    next => simp at h
  unfold peek2 at h
  split at h
  next u v ts hp =>
    obtain ⟨rfl, rfl⟩ : v = t ∧ l = l' := by simpa using h
    exact ⟨u, ts, hp⟩
  next u hp => exact ⟨u, [], by rw [hpull h, hp]; rfl⟩
  next hp =>
    split at h
    next u m hm => exact ⟨u, [], by rw [hpull h, hpull hm, hp]; rfl⟩
    next => simp at h

theorem showsNext (l : Lookahead σ) : l.ShowsNext where
  peek t ht := by
    obtain ⟨ts, hts⟩ := pending_of_peek (Prod.ext ht rfl)
    refine ⟨by simp [hts], fun looks hl => ?_⟩
    obtain ⟨us, hn⟩ := next_calls_of_pending hts hl
    rw [hn]
  peek2 t ht := by
    obtain ⟨u, ts, hts⟩ := pending_of_peek2 (Prod.ext ht rfl)
    refine ⟨by simp [hts], fun looks looks' hl hl' => ⟨u, ?_⟩⟩
    obtain ⟨us, hn⟩ := next_calls_of_pending hts hl
    rw [hn]
    have hp : ({ (l.peek2.2.calls looks).2 with pending := t :: ts ++ us } : Lookahead σ).pending =
        t :: (ts ++ us) := rfl
    obtain ⟨vs, hn'⟩ := next_calls_of_pending hp hl'
    exact ⟨rfl, by rw [hn']⟩

/-- What calls make of a fresh source is what scanning it gives. -/
theorem exists_follows (s : σ) (cs : List Call) :
    ∃ k, Follows ⟨s, []⟩ (calls ⟨s, []⟩ cs) k ∧
      ∀ c, ∃ ts, ReadsOn ⟨s, []⟩ k (calls ⟨s, []⟩ cs).2 c ts := by
  obtain ⟨rs, hs, hp, hf⟩ := scans_calls ⟨s, []⟩ cs
  have hk := hs.plain
  refine ⟨rs.length, ⟨by rw [hk], by rw [hk]; exact hp, by rw [hk]; exact hf⟩, fun c => ?_⟩
  obtain ⟨ts, hs', hp'⟩ := scans_call (calls ⟨s, []⟩ cs).2 c
  have hk' := (hs.append hs').plain
  rw [List.length_append] at hk'
  exact ⟨ts, ⟨by rw [hk'], by rw [hk', hk, List.map_append], hp'⟩⟩

end Lookahead

/-! ### The end of a text -/

namespace Cursor

theorem scan_of_cut_eq_none {c : Cursor} (h : cut? c.rest = none) :
    c.scan = ⟨.ok (.eof c.location), [], c⟩ := by
  rw [scan]
  split
  next => rfl
  next k hk => simp [h] at hk

/-- A scan that does not stop at the end of the text takes at least one character of it. -/
theorem scan_ends_or_takes (c : Cursor) :
    (cut? c.scan.cursor.rest = none ∧ c.scan.result = .ok (.eof c.scan.cursor.location)) ∨
      c.scan.cursor.rest.length < c.rest.length := by
  fun_induction Cursor.scan c with
  | case1 c h => exact .inl ⟨h, rfl⟩
  | case2 c k h => exact .inr (cut_rest_length h)
  | case3 c k h => exact .inr (cut_rest_length h)
  | case4 c k h _ _ _ ih => exact ih.imp_right fun hlt => Nat.lt_trans hlt (cut_rest_length h)
  | case5 c k h _ _ _ _ _ ih =>
    exact ih.imp_right fun hlt => Nat.lt_trans hlt (cut_rest_length h)

end Cursor

namespace Script

theorem scan_of_cut_eq_none {s : Script} (h : cut? s.cursor.rest = none) :
    TokenSource.scan s = (.ok (.eof s.cursor.location), s) := by
  change (s.cursor.scan.result, (⟨s.cursor.scan.cursor, s.warnings ++ s.cursor.scan.warnings⟩ :
    Script)) = _
  rw [Cursor.scan_of_cut_eq_none h, List.append_nil]

theorem plain_of_cut_eq_none {s : Script} (h : cut? s.cursor.rest = none) (k : Nat) :
    (Lookahead.plain (⟨s, []⟩ : Lexer) k).2 = ⟨s, []⟩ := by
  induction k with
  | zero => rfl
  | succ k ih => rw [Lookahead.plain_succ, scan_of_cut_eq_none h, ih]

theorem exists_eof (s : Script) :
    ∃ n place, ∀ k, n ≤ k →
      (Lookahead.plain (⟨s, []⟩ : Lexer) k).2.next.1 = .ok (.eof place) := by
  -- Warnings pile up in a script, so the induction is on the text that is left.
  induction hn : s.cursor.rest.length using Nat.strongRecOn generalizing s with
  | _ n ih =>
    let s' : Script := (TokenSource.scan s).2
    rcases s.cursor.scan_ends_or_takes with ⟨hc, hr⟩ | hlt
    · refine ⟨0, s'.cursor.location, fun k _ => ?_⟩
      cases k with
      | zero => exact hr
      | succ k =>
        have hc' : cut? s'.cursor.rest = none := hc
        rw [Lookahead.plain_succ, plain_of_cut_eq_none hc']
        exact congrArg Prod.fst (scan_of_cut_eq_none hc')
    · obtain ⟨n', place, h⟩ := ih _ (hn ▸ hlt) s' rfl
      refine ⟨n' + 1, place, fun k hk => ?_⟩
      obtain ⟨k, rfl⟩ := Nat.exists_eq_add_of_le' (Nat.le_trans (Nat.le_add_left 1 n') hk)
      exact h k (Nat.le_of_succ_le_succ hk)

end Script

/-- Whichever calls a lexer gets, also behind faults, it reads its text as one that only takes
tokens: it has read as far as that one has in `k` steps, with the same warnings. Each call goes on
from there, and answers at most one fault, the last thing that it reads; at most two tokens wait;
and what is shown is what is taken next. -/
theorem calls_transparent (text : String) :
    (∃ n place, ∀ k, n ≤ k → ((Lexer.ofString text).plain k).2.next.1 = .ok (.eof place)) ∧
      ∀ cs, let reached := (Lexer.ofString text).calls cs
        (∃ k, (Lexer.ofString text).Follows reached k ∧
          reached.2.source.warnings = ((Lexer.ofString text).plain k).2.source.warnings ∧
          ∀ c, ∃ ts, (Lexer.ofString text).ReadsOn k reached.2 c ts) ∧
        reached.2.pending.length ≤ 2 ∧ reached.2.ShowsNext := by
  refine ⟨(Script.ofString text).exists_eof, fun cs => ?_⟩
  obtain ⟨k, hf, hr⟩ := Lookahead.exists_follows (Script.ofString text) cs
  refine ⟨⟨k, hf, congrArg Script.warnings hf.source, hr⟩, ?_, Lookahead.showsNext _⟩
  exact Lookahead.length_pending_calls_le (l := Lexer.ofString text) (Nat.zero_le 2) cs

end FlatScript
