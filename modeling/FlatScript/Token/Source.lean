import FlatScript.Token
import FlatScript.LexError

namespace FlatScript

/-- Every token but the end of input makes a source smaller; a fault never makes it larger. -/
class TokenSource (σ : Type) where
  scan : σ → Except LexError Token × σ
  size : σ → Nat
  size_scan_le (s : σ) : size (scan s).2 ≤ size s
  size_scan_lt (s : σ) (t : Token) (ht : (scan s).1 = .ok t) (he : t.isEof = false) :
    size (scan s).2 < size s

/-- A source with the tokens that have been scanned and not yet taken. -/
structure Lookahead (σ : Type) where
  source : σ
  pending : List Token := []
deriving Repr

namespace Lookahead

variable {σ : Type} [TokenSource σ]

def next (l : Lookahead σ) : Except LexError Token × Lookahead σ :=
  match l.pending with
  | t :: ts => (.ok t, { l with pending := ts })
  | [] => let (result, source) := TokenSource.scan l.source
    (result, { l with source })

/-- Scans one more token; a fault leaves those that are waiting where they are. -/
def pull (l : Lookahead σ) : Except LexError Token × Lookahead σ :=
  match TokenSource.scan l.source with
  | (.ok t, source) => (.ok t, ⟨source, l.pending ++ [t]⟩)
  | (.error e, source) => (.error e, { l with source })

def peek (l : Lookahead σ) : Except LexError Token × Lookahead σ :=
  match l.pending with
  | t :: _ => (.ok t, l)
  | [] => l.pull

def peek2 (l : Lookahead σ) : Except LexError Token × Lookahead σ :=
  match l.pending with
  | _ :: t :: _ => (.ok t, l)
  | [_] => l.pull
  | [] =>
    match l.pull with
    | (.ok _, l) => l.pull
    | (.error e, l) => (.error e, l)

def size (l : Lookahead σ) : Nat :=
  TokenSource.size l.source + l.pending.countP (!·.isEof)

theorem size_next_le (l : Lookahead σ) : l.next.2.size ≤ l.size := by
  unfold next
  split
  next t ts h =>
    simp only [size, h, List.countP_cons]
    omega
  next h =>
    have hs := TokenSource.size_scan_le l.source
    simpa [size, h] using hs

theorem size_next_lt {l : Lookahead σ} {t : Token} (ht : l.next.1 = .ok t)
    (he : t.isEof = false) : l.next.2.size < l.size := by
  unfold next at ht ⊢
  split at ht
  next u ts h =>
    obtain rfl : u = t := by simpa using ht
    simp [size, h, he]
  next h =>
    have hs := TokenSource.size_scan_lt l.source t ht he
    simpa [size, h] using hs

theorem size_pull_le (l : Lookahead σ) : l.pull.2.size ≤ l.size := by
  have hs := TokenSource.size_scan_le l.source
  unfold pull
  split
  next t source h =>
    have hl := TokenSource.size_scan_lt l.source t
    rw [h] at hs hl
    cases he : t.isEof with
    | false =>
      have := hl rfl he
      simp only [size, List.countP_append, List.countP_singleton, he]
      simp only at this
      simp
      omega
    | true =>
      simpa [size, he] using hs
  next e source h =>
    rw [h] at hs
    simpa [size] using hs

theorem size_peek_le (l : Lookahead σ) : l.peek.2.size ≤ l.size := by
  unfold peek
  split
  · exact Nat.le_refl _
  · exact size_pull_le l

theorem size_peek2_le (l : Lookahead σ) : l.peek2.2.size ≤ l.size := by
  unfold peek2
  split
  · exact Nat.le_refl _
  · exact size_pull_le l
  · have h₁ := size_pull_le l
    split
    next l' h =>
      rw [h] at h₁
      exact Nat.le_trans (size_pull_le l') h₁
    next l' h =>
      rw [h] at h₁
      exact h₁

theorem pending_of_peek {l l' : Lookahead σ} {t : Token} (h : l.peek = (.ok t, l')) :
    ∃ ts, l'.pending = t :: ts := by
  unfold peek at h
  split at h
  next u ts hp =>
    obtain ⟨rfl, rfl⟩ : u = t ∧ l = l' := by simpa using h
    exact ⟨ts, hp⟩
  next hp =>
    unfold pull at h
    split at h
    next u source _ =>
      obtain ⟨rfl, rfl⟩ : u = t ∧ _ = l' := by simpa using h
      exact ⟨[], by simp [hp]⟩
    next => simp at h

theorem next_of_peek {l l' : Lookahead σ} {t : Token} (h : l.peek = (.ok t, l')) :
    l'.next = (.ok t, { l' with pending := l'.pending.tail }) := by
  obtain ⟨ts, hp⟩ := pending_of_peek h
  simp [next, hp]

def drain (l : Lookahead σ) : Except LexError (List Token) × Lookahead σ :=
  match hn : l.next with
  | (.error e, l') => (.error e, l')
  | (.ok t, l') =>
    if he : t.isEof = true then (.ok [t], l')
    else
      have : l'.size < l.size := by
        have h := size_next_lt (l := l) (by rw [hn]) ((Bool.not_eq_true _).mp he)
        rwa [hn] at h
      match l'.drain with
      | (.ok ts, l'') => (.ok (t :: ts), l'')
      | (.error e, l'') => (.error e, l'')
termination_by l.size
decreasing_by exact this

end Lookahead

end FlatScript
