import FlatScript.Proofs.Nesting

namespace FlatScript

/-- A source, how many levels are open, and what stood in front of the parser when it opened one
too many for the first time. -/
structure Nested (σ : Type) where
  source : σ
  depth : Nat
  crossing : Option (Lookahead σ)

variable {σ τ : Type} [TokenSource σ] [TokenSource τ] {α : Type}

instance : TokenSource (Nested σ) where
  scan n := ((TokenSource.scan n.source).1, { n with source := (TokenSource.scan n.source).2 })
  size n := TokenSource.size n.source
  size_scan_le n := TokenSource.size_scan_le n.source
  size_scan_lt n := TokenSource.size_scan_lt n.source

namespace Lookahead

def nested (l : Lookahead σ) (depth : Nat) (crossing : Option (Lookahead σ)) :
    Lookahead (Nested σ) := ⟨⟨l.source, depth, crossing⟩, l.pending⟩

variable (l : Lookahead σ) (depth : Nat) (crossing : Option (Lookahead σ))

theorem next_nested :
    (l.nested depth crossing).next = (l.next.1, l.next.2.nested depth crossing) := by
  obtain ⟨source, _ | ⟨t, ts⟩⟩ := l
  · rfl
  · rfl

theorem pull_nested :
    (l.nested depth crossing).pull = (l.pull.1, l.pull.2.nested depth crossing) := by
  have hs : TokenSource.scan (l.nested depth crossing).source =
      ((TokenSource.scan l.source).1, ⟨(TokenSource.scan l.source).2, depth, crossing⟩) := rfl
  rw [pull, hs, pull]
  rcases TokenSource.scan l.source with ⟨e | t, source⟩
  · rfl
  · rfl

theorem peek_nested :
    (l.nested depth crossing).peek = (l.peek.1, l.peek.2.nested depth crossing) := by
  obtain ⟨source, _ | ⟨t, ts⟩⟩ := l
  · exact pull_nested ⟨source, []⟩ depth crossing
  · rfl

theorem peek2_nested :
    (l.nested depth crossing).peek2 = (l.peek2.1, l.peek2.2.nested depth crossing) := by
  obtain ⟨source, _ | ⟨t, _ | ⟨u, us⟩⟩⟩ := l
  · have h := pull_nested ⟨source, []⟩ depth crossing
    have hn : (nested ⟨source, []⟩ depth crossing).pending = [] := rfl
    rw [peek2, peek2]
    simp only [hn, h]
    rcases pull ⟨source, []⟩ with ⟨e | t, l⟩
    · rfl
    · exact pull_nested l depth crossing
  · exact pull_nested ⟨source, [t]⟩ depth crossing
  · rfl

end Lookahead

namespace ParserState

def nested (s : ParserState σ) (depth : Nat) (crossing : Option (Lookahead σ)) :
    ParserState (Nested σ) := ⟨s.tokens.nested depth crossing, s.nextId⟩

def plain (s : ParserState (Nested σ)) : ParserState σ :=
  ⟨⟨s.tokens.source.source, s.tokens.pending⟩, s.nextId⟩

def depth (s : ParserState (Nested σ)) : Nat := s.tokens.source.depth

def crossing (s : ParserState (Nested σ)) : Option (Lookahead σ) := s.tokens.source.crossing

def after (s : ParserState σ) (parser : Demand → Parser σ Tree) (ds : List Demand) :
    ParserState σ := ds.foldl (fun s d => ((parser d).run s).2) s

end ParserState

namespace Parser

def IgnoresLevels (p : Parser σ α) (p' : Parser (Nested σ) α) : Prop :=
  ∀ (s : ParserState σ) depth crossing,
    p'.run (s.nested depth crossing) = ((p.run s).1, (p.run s).2.nested depth crossing)

theorem ignoresLevels_ofTokens {step : Lookahead σ → Except LexError Token × Lookahead σ}
    {h : ∀ l, (step l).2.size ≤ l.size}
    {step' : Lookahead (Nested σ) → Except LexError Token × Lookahead (Nested σ)}
    {h' : ∀ l, (step' l).2.size ≤ l.size}
    (hs : ∀ l depth crossing, step' (l.nested depth crossing) =
      ((step l).1, (step l).2.nested depth crossing)) :
    IgnoresLevels (ofTokens step h) (ofTokens step' h') := by
  intro s depth crossing
  have hn : (s.nested depth crossing).tokens = s.tokens.nested depth crossing := rfl
  simp only [ofTokens, hn, hs]
  rcases step s.tokens with ⟨e | t, l⟩
  · rfl
  · rfl

theorem ignoresLevels_next : IgnoresLevels (next : Parser σ Token) next :=
  ignoresLevels_ofTokens Lookahead.next_nested

theorem ignoresLevels_peek : IgnoresLevels (peek : Parser σ Token) peek :=
  ignoresLevels_ofTokens Lookahead.peek_nested

theorem ignoresLevels_peek2 : IgnoresLevels (peek2 : Parser σ Token) peek2 :=
  ignoresLevels_ofTokens Lookahead.peek2_nested

theorem ignoresLevels_fresh : IgnoresLevels (fresh : Parser σ NodeId) fresh := fun _ _ _ => rfl

/-- The failure of opening one level too many in front of the tokens. -/
def tooDeepAt (l : Lookahead σ) : ParseError :=
  match l.peek.1 with
  | .ok t => .nestingTooDeep maxNesting t.location
  | .error e => .lex e

theorem fst_run_tooDeep (s : ParserState σ) :
    ((tooDeep : Parser σ α).run s).1 = .error (tooDeepAt s.tokens) := by
  rw [tooDeep, run_bind, peek, tooDeepAt]
  simp only [ofTokens]
  rcases s.tokens.peek with ⟨e | t, l⟩
  · rfl
  · rfl

namespace Bracket

/-- Where `maxNesting` levels are open no more is opened. -/
def counting : Bracket (Nested σ) where
  opening.run s :=
    if maxNesting ≤ s.depth then tooDeep.run s
    else (.ok (), s.plain.nested (s.depth + 1) s.crossing)
  opening.size_run_le s := by
    split
    · exact tooDeep.size_run_le s
    · exact Nat.le_refl _
  closing s := s.plain.nested (s.depth - 1) s.crossing
  size_closing_le _ := Nat.le_refl _

theorem run_opening_counting (s : ParserState (Nested σ)) :
    counting.opening.run s =
      if maxNesting ≤ s.depth then tooDeep.run s
      else (.ok (), s.plain.nested (s.depth + 1) s.crossing) := rfl

/-- Where `maxNesting` levels are open for the first time and one more is opened, that is noted. -/
def watching : Bracket (Nested σ) where
  opening.run s :=
    let crossing := if maxNesting ≤ s.depth then s.crossing.or (some s.plain.tokens) else s.crossing
    (.ok (), s.plain.nested (s.depth + 1) crossing)
  opening.size_run_le _ := Nat.le_refl _
  closing s := s.plain.nested (s.depth - 1) s.crossing
  size_closing_le _ := Nat.le_refl _

end Bracket

/-! ### Correspondences -/

section

variable {p : Parser σ α} {p' : Parser (Nested σ) α} (h : IgnoresLevels p p')

include h

theorem IgnoresLevels.follows_counting (depth n : Nat) :
    Follows (fun s t => s = t.nested depth none) (fun _ _ => False) n p' p := by
  refine ⟨?_, fun _ _ h => h⟩
  rintro _ t rfl -
  rw [h]
  exact .same rfl rfl

theorem IgnoresLevels.follows_watching (depth n : Nat) :
    Follows (fun s t => t = s.nested depth none)
      (fun e t => ∃ l, t.crossing = some l ∧ e = tooDeepAt l) n p p' := by
  refine ⟨?_, fun e t ht => ?_⟩
  · rintro s _ rfl -
    rw [h]
    exact .same rfl rfl
  · have hr : p'.run t = _ := h t.plain t.depth t.crossing
    rw [hr]
    exact ht

theorem IgnoresLevels.follows_plain (n : Nat) :
    Follows (fun s t => s.plain = t) (fun _ _ => False) n p' p := by
  refine ⟨?_, fun _ _ h => h⟩
  rintro s _ rfl -
  have hr : p'.run s = _ := h s.plain s.depth s.crossing
  rw [hr]
  exact .same rfl rfl

end

namespace Pairing

def counting (depth : Nat) : Pairing (Nested σ) σ where
  rel s t := s = t.nested depth none
  off _ _ := False
  next n := ignoresLevels_next.follows_counting depth n
  peek n := ignoresLevels_peek.follows_counting depth n
  peek2 n := ignoresLevels_peek2.follows_counting depth n
  fresh n := ignoresLevels_fresh.follows_counting depth n

def watching (depth : Nat) : Pairing σ (Nested σ) where
  rel s t := t = s.nested depth none
  off e t := ∃ l, t.crossing = some l ∧ e = tooDeepAt l
  next n := ignoresLevels_next.follows_watching depth n
  peek n := ignoresLevels_peek.follows_watching depth n
  peek2 n := ignoresLevels_peek2.follows_watching depth n
  fresh n := ignoresLevels_fresh.follows_watching depth n

def plain : Pairing (Nested σ) σ where
  rel s t := s.plain = t
  off _ _ := False
  next n := ignoresLevels_next.follows_plain n
  peek n := ignoresLevels_peek.follows_plain n
  peek2 n := ignoresLevels_peek2.follows_plain n
  fresh n := ignoresLevels_fresh.follows_plain n

end Pairing

namespace Bracket

theorem opens_counting {depth : Nat} (h : depth < maxNesting) :
    Opens (Pairing.counting depth) (Pairing.counting (depth + 1)) counting (plain : Bracket σ) where
  opening := by
    rintro _ t rfl
    refine .inl ⟨t.nested (depth + 1) none, t, ?_, rfl, rfl⟩
    exact if_neg (Nat.not_le_of_lt h)
  closing := by
    rintro _ t rfl
    rfl
  keeps_opening := fun _ _ h => h.elim
  keeps_closing := fun _ _ h => h

theorem opens_watching {depth : Nat} (h : depth < maxNesting) :
    Opens (Pairing.watching depth) (Pairing.watching (depth + 1)) (plain : Bracket σ) watching where
  opening := by
    rintro s _ rfl
    refine .inl ⟨s, s.nested (depth + 1) none, rfl, ?_, rfl⟩
    exact congrArg (fun crossing => (Except.ok (), s.nested (depth + 1) crossing))
      (if_neg (Nat.not_le_of_lt h))
  closing := by
    rintro s _ rfl
    rfl
  keeps_opening := by
    rintro e t ⟨l, hl, he⟩
    refine ⟨_, rfl, l, ?_, he⟩
    change (if maxNesting ≤ t.depth then t.crossing.or (some t.plain.tokens) else t.crossing) = some l
    rw [hl]
    split
    · rfl
    · rfl
  keeps_closing := fun _ _ h => h

theorem opens_plain :
    Opens Pairing.plain Pairing.plain watching (plain : Bracket σ) where
  opening := by
    rintro s _ rfl
    exact .inl ⟨_, _, rfl, rfl, rfl⟩
  closing := by
    rintro s _ rfl
    rfl
  keeps_opening := fun _ _ h => h.elim
  keeps_closing := fun _ _ h => h

end Bracket

/-! ### The grammar -/

theorem tooDeep_bind (f : Unit → Parser σ α) : (tooDeep >>= f : Parser σ α) = tooDeep := by
  rw [tooDeep, bind_assoc]
  rfl

def innerStatements : Nat → Parser σ (List Statement)
  | 0 => tooDeep
  | levels + 1 => statements levels

theorem statements_eq (levels : Nat) :
    (statements levels : Parser σ (List Statement)) =
      listing (expression levels) (expression_consumes levels) (innerStatements levels) := by
  cases levels with
  | zero => rfl
  | succ levels => rfl

section Counting

variable {depth levels n : Nat}

open FlatScript.Parser.Bracket (counting plain)

theorem follows_counting_full (p : Parser (Nested σ) α) (n : Nat) :
    (Pairing.counting maxNesting).Follows n (counting.around p) (tooDeep : Parser σ α) := by
  refine ⟨?_, fun _ _ h => h⟩
  rintro _ t rfl hs
  have ho : counting.opening.run (t.nested maxNesting none) =
      tooDeep.run (t.nested maxNesting none) := by
    rw [Bracket.run_opening_counting]
    exact if_pos (Nat.le_refl maxNesting)
  have ha : (counting.around p).run (t.nested maxNesting none) =
      tooDeep.run (t.nested maxNesting none) := by
    rw [← tooDeep_bind fun _ => counting.closed p, Bracket.around, run_bind, ho, run_bind]
  rw [ha]
  exact (follows_tooDeep _ n).run _ t rfl hs

theorem follows_counting_expressionWithin (h : depth + levels = maxNesting) (n : Nat) :
    (Pairing.counting depth).Follows n (counting.expressionWithin n)
      (expression levels : Parser σ Expr) := by
  induction n generalizing depth levels with
  | zero => exact ⟨fun _ _ _ hs => absurd hs (Nat.not_lt_zero _), fun _ _ h => h⟩
  | succ n ih =>
    cases levels with
    | zero =>
      obtain rfl : depth = maxNesting := h
      exact follows_counting_full _ _
    | succ levels =>
      have h' : depth + 1 + levels = maxNesting := by omega
      have ho := (Bracket.opens_counting (by omega)).around (follows_chain (ih h') 0)
      rwa [Bracket.around_plain] at ho

theorem follows_counting_bodyWithin (h : depth + levels = maxNesting) (n : Nat) :
    (Pairing.counting depth).Follows n (counting.bodyWithin n)
      (innerStatements levels : Parser σ (List Statement)) := by
  induction n generalizing depth levels with
  | zero => exact ⟨fun _ _ _ hs => absurd hs (Nat.not_lt_zero _), fun _ _ h => h⟩
  | succ n ih =>
    cases levels with
    | zero =>
      obtain rfl : depth = maxNesting := h
      exact follows_counting_full _ _
    | succ levels =>
      have h' : depth + 1 + levels = maxNesting := by omega
      have hl := Pairing.Follows.listing (counting.consumes_expressionWithin (n + 1))
        (expression_consumes levels) (follows_counting_expressionWithin h' _) (ih h')
      have ho := (Bracket.opens_counting (by omega)).around hl
      rwa [Bracket.around_plain, ← statements_eq] at ho

end Counting

section Watching

variable {depth levels n : Nat}

open FlatScript.Parser.Bracket (watching plain)

theorem follows_watching_full {p : Parser (Nested σ) α}
    (h : ∀ e t, (∃ l, t.crossing = some l ∧ e = tooDeepAt l) →
      ∃ l, (p.run t).2.crossing = some l ∧ e = tooDeepAt l) (n : Nat) :
    (Pairing.watching maxNesting).Follows n (tooDeep : Parser σ α) (watching.around p) := by
  have ho : Bracket.Opens (Pairing.watching 0) (Pairing.watching 1) (plain : Bracket σ) watching :=
    Bracket.opens_watching (by decide)
  refine ⟨?_, ho.keeps_around h⟩
  rintro s _ rfl hs
  refine .cut (fst_run_tooDeep s) ?_
  exact h _ (s.nested (maxNesting + 1) (some s.tokens)) ⟨s.tokens, rfl, rfl⟩

theorem follows_watching_expressionWithin (h : depth + levels = maxNesting) (n : Nat) :
    (Pairing.watching depth).Follows n (expression levels : Parser σ Expr)
      (watching.expressionWithin n) := by
  induction n generalizing depth levels with
  | zero =>
    exact ⟨fun _ _ _ hs => absurd hs (Nat.not_lt_zero _), (follows_tooDeep _ 0).keeps⟩
  | succ n ih =>
    cases levels with
    | zero =>
      have hc := follows_chain (ih h) 0
      obtain rfl : depth = maxNesting := h
      exact follows_watching_full hc.keeps _
    | succ levels =>
      have h' : depth + 1 + levels = maxNesting := by omega
      have ho := (Bracket.opens_watching (by omega)).around (follows_chain (ih h') 0)
      rwa [Bracket.around_plain] at ho

theorem follows_watching_bodyWithin (h : depth + levels = maxNesting) (n : Nat) :
    (Pairing.watching depth).Follows n (innerStatements levels : Parser σ (List Statement))
      (watching.bodyWithin n) := by
  induction n generalizing depth levels with
  | zero =>
    exact ⟨fun _ _ _ hs => absurd hs (Nat.not_lt_zero _), (follows_tooDeep _ 0).keeps⟩
  | succ n ih =>
    cases levels with
    | zero =>
      have hl := Pairing.Follows.listing (expression_consumes 0)
        (watching.consumes_expressionWithin (n + 1)) (follows_watching_expressionWithin h _) (ih h)
      obtain rfl : depth = maxNesting := h
      exact follows_watching_full hl.keeps _
    | succ levels =>
      have h' : depth + 1 + levels = maxNesting := by omega
      have hl := Pairing.Follows.listing (expression_consumes levels)
        (watching.consumes_expressionWithin (n + 1)) (follows_watching_expressionWithin h' _) (ih h')
      have ho := (Bracket.opens_watching (by omega)).around hl
      rwa [Bracket.around_plain, ← statements_eq] at ho

end Watching

theorem follows_plain_expressionWithin (n : Nat) :
    Pairing.plain.Follows n (Bracket.watching.expressionWithin n)
      (Bracket.plain.expressionWithin n : Parser σ Expr) := by
  induction n with
  | zero => exact ⟨fun _ _ _ hs => absurd hs (Nat.not_lt_zero _), fun _ _ h => h⟩
  | succ n ih => exact Bracket.opens_plain.around (follows_chain ih 0)

theorem follows_plain_bodyWithin (n : Nat) :
    Pairing.plain.Follows n (Bracket.watching.bodyWithin n)
      (Bracket.plain.bodyWithin n : Parser σ (List Statement)) := by
  induction n with
  | zero => exact ⟨fun _ _ _ hs => absurd hs (Nat.not_lt_zero _), fun _ _ h => h⟩
  | succ n ih =>
    exact Bracket.opens_plain.around (.listing _ _ (follows_plain_expressionWithin (n + 1)) ih)

/-! ### Demands -/

theorem parser_eq_answering (d : Demand) :
    (d.parser : Parser σ Tree) =
      answering (expression maxNesting) (expression_consumes _) (innerStatements maxNesting) d := by
  cases d with
  | program => rfl
  | expression => rfl

theorem follows_counting (d : Demand) (n : Nat) :
    (Pairing.counting 0).Follows n (Bracket.counting.parser d) (d.parser : Parser σ Tree) := by
  have hsize : ∀ (s : ParserState (Nested σ)) t, (Pairing.counting 0).rel s t →
      s.tokens.size = t.tokens.size := by
    rintro _ t rfl
    rfl
  rw [parser_eq_answering]
  exact .answering _ _
    (.unbounded hsize (follows_counting_expressionWithin (Nat.zero_add maxNesting)))
    (.unbounded hsize (follows_counting_bodyWithin (Nat.zero_add maxNesting))) d n

theorem follows_watching (d : Demand) (n : Nat) :
    (Pairing.watching 0).Follows n (d.parser : Parser σ Tree) (Bracket.watching.parser d) := by
  have hsize : ∀ (s : ParserState σ) t, (Pairing.watching 0).rel s t →
      s.tokens.size = t.tokens.size := by
    rintro s _ rfl
    rfl
  rw [parser_eq_answering]
  exact .answering _ _
    (.unbounded hsize (follows_watching_expressionWithin (Nat.zero_add maxNesting)))
    (.unbounded hsize (follows_watching_bodyWithin (Nat.zero_add maxNesting))) d n

theorem follows_plain (d : Demand) (n : Nat) :
    Pairing.plain.Follows n (Bracket.watching.parser d)
      (Bracket.plain.parser d : Parser σ Tree) := by
  have hsize : ∀ (s : ParserState (Nested σ)) (t : ParserState σ), Pairing.plain.rel s t →
      s.tokens.size = t.tokens.size := by
    rintro s _ rfl
    rfl
  exact .answering _ _ (.unbounded hsize follows_plain_expressionWithin)
    (.unbounded hsize follows_plain_bodyWithin) d n

end Parser

open FlatScript.Parser

/-- How the answer to a demand depends on the limit, from a state in which no level is open. -/
structure Demand.CutOff (d : Demand) (s : ParserState σ) : Prop where
  /-- The parser that counts closes every level that it opens. -/
  counting : (Bracket.counting.parser d).run (s.nested 0 none) =
    ((d.parser.run s).1, (d.parser.run s).2.nested 0 none)
  /-- The parser that is watched is the one without a limit. -/
  watching :
    ((Bracket.watching.parser d).run (s.nested 0 none)).1 = ((Bracket.plain.parser d).run s).1 ∧
    ((Bracket.watching.parser d).run (s.nested 0 none)).2.plain = ((Bracket.plain.parser d).run s).2
  same : ((Bracket.watching.parser d).run (s.nested 0 none)).2.crossing = none →
    d.parser.run s = (Bracket.plain.parser d).run s
  /-- Where one is opened, the answer is the failure in front of it. -/
  cut : ∀ l, ((Bracket.watching.parser d).run (s.nested 0 none)).2.crossing = some l →
    (d.parser.run s).1 = .error (tooDeepAt l)

theorem Demand.cutOff (d : Demand) (s : ParserState σ) : d.CutOff s := by
  have hc := (follows_counting d _).run _ s rfl (Nat.lt_succ_self _)
  have hw := (follows_watching d _).run s _ rfl (Nat.lt_succ_self _)
  have hp := (follows_plain d _).run (s.nested 0 none) s rfl (Nat.lt_succ_self _)
  have hwatching : ((Bracket.watching.parser d).run (s.nested 0 none)).1 =
      ((Bracket.plain.parser d).run s).1 ∧
        ((Bracket.watching.parser d).run (s.nested 0 none)).2.plain =
          ((Bracket.plain.parser d).run s).2 := by
    cases hp with
    | same hr h => exact ⟨hr, h⟩
    | cut _ h => exact h.elim
  refine ⟨?_, hwatching, fun hn => ?_, fun l hl => ?_⟩
  · cases hc with
    | same hr h => exact Prod.ext hr h
    | cut _ h => exact h.elim
  · cases hw with
    | same hr h =>
      refine Prod.ext (hr.trans hwatching.1) ?_
      rw [← hwatching.2, h]
      rfl
    | cut _ h =>
      obtain ⟨l, hl, -⟩ := h
      rw [hn] at hl
      exact nomatch hl
  · cases hw with
    | same _ h =>
      rw [h] at hl
      exact nomatch hl
    | cut he h =>
      obtain ⟨l', hl', rfl⟩ := h
      obtain rfl : l' = l := Option.some.inj (hl'.symm.trans hl)
      exact he

/-- Whatever a parser that counts its levels has been asked for before, and whether it has answered
in a tree or in an error, no level is open when it is asked again; and then it answers what the
parser without a limit answers, and leaves the state that one leaves, unless that one opens a level
too many. -/
theorem nesting_cuts_off (start : ParserState σ) (before : List Demand) :
    (start.nested 0 none).after Bracket.counting.parser before =
        (start.after Demand.parser before).nested 0 none ∧
      ∀ d : Demand, d.CutOff (start.after Demand.parser before) := by
  refine ⟨?_, fun d => d.cutOff _⟩
  induction before generalizing start with
  | nil => rfl
  | cons d ds ih =>
    have h := congrArg Prod.snd (d.cutOff start).counting
    rw [ParserState.after, List.foldl_cons, h]
    exact ih _

end FlatScript
