import FlatScript.Proofs.Footprint
import FlatScript.Proofs.Tiling

namespace FlatScript

namespace Cursor

/-- The cursor from the beginning of a text, after so many calls for the next character. -/
def behind (text : String) : Nat → Cursor
  | 0 => .ofString text
  | p + 1 => (behind text p).next?.2

def skipBlanks (c : Cursor) : Cursor :=
  c.moveTo (c.rest.takeWhile isBlank) (c.rest.dropWhile isBlank)

/-- What comes of one round of a scan: the scan stops, or another round follows from the cursor. -/
inductive Round
  | stops (found : Scan)
  | goesOn (warnings : List Warning) (c : Cursor)

def round (c : Cursor) : Round :=
  let c := c.skipBlanks
  match cut? c.rest with
  | none => .stops ⟨.ok (.eof c.location), [], c⟩
  | some k =>
    let behind := c.moveTo k.spelling k.rest
    match k.piece with
    | .token kind text => .stops ⟨.ok ⟨kind, text, c.location⟩, [], behind⟩
    | .fault cause => .stops ⟨.error ⟨cause, c.location⟩, [], behind⟩
    | .layout => .goesOn [] behind
    | .unknown ch => .goesOn [.unknownCharacter ch c.location] behind

/-- One round is made after the other, from the cursors `cs` on after the first one, until one
stops. -/
inductive Rounds : Cursor → List Cursor → Scan → Prop
  | stops {c : Cursor} {found : Scan} (h : c.round = .stops found) : Rounds c [] found
  | goesOn {c c' : Cursor} {ws : List Warning} {cs : List Cursor} {found : Scan}
      (h : c.round = .goesOn ws c') (hr : Rounds c' cs found) :
      Rounds c (c' :: cs) { found with warnings := ws ++ found.warnings }

/-- How the scan from behind `p` characters of a text goes. Its rounds come to an end, and do what
the scan does. Each round that goes on does so behind more characters, in the end those in front of
the last of `ps`; and what is found ends behind `q` characters, which are more again unless it is
the end of the text. -/
structure Passes (text : String) (p : Nat) (ps : List Nat) (q : Nat) : Prop where
  rounds : ∀ cs found, (behind text p).Rounds cs found ↔
    cs = ps.map (behind text) ∧ found = (behind text p).scan
  cursor : (behind text p).scan.cursor = behind text q
  forward : (p :: ps).Pairwise (· < ·)
  stops : (∀ r ∈ p :: ps, r < q) ∧ (∀ t, (behind text p).scan.result = .ok t → t.isEof = false) ∨
    (∀ r ∈ p :: ps, r ≤ q) ∧ q = text.length ∧
      (behind text p).scan.result = .ok (.eof (.endOf text.toList))
  le_length : q ≤ text.length

/-! ### Places in a text -/

variable {text : String} {p : Nat} {c c' : Cursor}

theorem rest_behind (text : String) (p : Nat) : (behind text p).rest = text.toList.drop p := by
  induction p with
  | zero => rfl
  | succ p ih =>
    rw [behind, next?, ← List.tail_drop, ← ih]
    split
    next h => rw [h]; rfl
    next h => rw [h]; rfl

theorem moveTo_behind {taken rest : List Char} (h : (behind text p).rest = taken ++ rest) :
    (behind text p).moveTo taken rest = behind text (p + taken.length) := by
  induction taken generalizing p with
  | nil =>
    obtain rfl : (behind text p).rest = rest := h
    rfl
  | cons ch taken ih =>
    have hb : behind text (p + 1) = ⟨taken ++ rest, (behind text p).location.advance ch⟩ := by
      rw [behind, next?, h]
      rfl
    have hm := ih (p := p + 1) (by rw [hb])
    rw [hb] at hm
    rw [List.length_cons, Nat.add_comm taken.length, ← Nat.add_assoc, ← hm]
    rfl

theorem add_length_le {taken rest : List Char} (h : (behind text p).rest = taken ++ rest)
    (hp : p ≤ text.length) : p + taken.length ≤ text.length := by
  have hl := congrArg List.length h
  rw [rest_behind, List.length_drop, String.length_toList, List.length_append] at hl
  omega

theorem location_behind_length (text : String) :
    (behind text text.length).location = .endOf text.toList := by
  have h : (behind text 0).rest = text.toList ++ [] := (List.append_nil _).symm
  have hm := moveTo_behind h
  rw [Nat.zero_add, String.length_toList] at hm
  rw [← hm]
  exact Location.past_start text.toList

/-! ### Rounds -/

theorem skipBlanks_append (c : Cursor) :
    c.rest.takeWhile isBlank ++ c.skipBlanks.rest = c.rest :=
  List.takeWhile_append_dropWhile

theorem scan_skipBlanks (c : Cursor) : c.skipBlanks.scan = c.scan := by
  obtain ⟨cs, place⟩ := c
  induction cs generalizing place with
  | nil => rfl
  | cons ch cs ih =>
    cases hb : isBlank ch with
    | false => simp [skipBlanks, moveTo, hb]
    | true =>
      have hs : (⟨ch :: cs, place⟩ : Cursor).scan = (⟨cs, place.advance ch⟩ : Cursor).scan := by
        rw [scan]
        split
        next hn => simp [cut?] at hn
        next k hk =>
          obtain rfl : ⟨.layout, [ch], cs⟩ = k := by simpa [cut?, hb] using hk
          rfl
      rw [hs, ← ih]
      simp [skipBlanks, moveTo, hb]

theorem scan_eq_round (c : Cursor) :
    c.scan = match c.round with
      | .stops found => found
      | .goesOn ws c' => { c'.scan with warnings := ws ++ c'.scan.warnings } := by
  rw [← scan_skipBlanks, scan, round]
  split
  next h => simp [h]
  next k h =>
    simp only [h]
    split
    all_goals simp_all

theorem isEof_eq_false_of_cut {cs : List Char} {k : Cut} {kind : Token.Kind} {spelling : String}
    (h : cut? cs = some k) (hk : k.piece = .token kind spelling) (place : Location) :
    (⟨kind, spelling, place⟩ : Token).isEof = false := by
  have hr := isRegular_of_cut h
  cases hr with
  | blank | lineComment | blockComment | unknown | fault => simp at hk
  | @lexeme l rest hp _ =>
    obtain ⟨rfl, rfl⟩ : l.kind = kind ∧ l.text = spelling := by simpa using hk
    exact hp.isEof_token place

/-- What one round does: it takes all that is left and stops at the end, or it takes some characters
and stops behind a token or a fault or goes on behind them. -/
theorem round_cases (c : Cursor) :
    ∃ taken rest, c.rest = taken ++ rest ∧
      ((rest = [] ∧
          c.round = .stops ⟨.ok (.eof (c.moveTo taken rest).location), [], c.moveTo taken rest⟩) ∨
        taken ≠ [] ∧
          ((∃ found, c.round = .stops found ∧ found.cursor = c.moveTo taken rest ∧
              ∀ t, found.result = .ok t → t.isEof = false) ∨
            ∃ ws, c.round = .goesOn ws (c.moveTo taken rest))) := by
  have hblanks := skipBlanks_append c
  cases hk : cut? c.skipBlanks.rest with
  | none =>
    have hnil : c.skipBlanks.rest = [] := by
      cases hr : c.skipBlanks.rest with
      | nil => rfl
      | cons ch cs => simp [hr, cut?] at hk
    have hc : c.skipBlanks = c.moveTo (c.rest.takeWhile isBlank) [] := by
      rw [skipBlanks]
      exact congrArg _ hnil
    refine ⟨c.rest.takeWhile isBlank, [], by rw [← hnil, hblanks], .inl ⟨rfl, ?_⟩⟩
    simp only [round, hk]
    rw [hc]
  | some k =>
    have hmove : c.skipBlanks.moveTo k.spelling k.rest =
        c.moveTo (c.rest.takeWhile isBlank ++ k.spelling) k.rest := by
      simp [skipBlanks, moveTo, Location.past_append]
    refine ⟨c.rest.takeWhile isBlank ++ k.spelling, k.rest, ?_, .inr ⟨?_, ?_⟩⟩
    · rw [List.append_assoc, cut_append hk, hblanks]
    · exact List.append_ne_nil_of_right_ne_nil _ (cut_spelling_ne_nil hk)
    · simp only [round, hk, ← hmove]
      cases hp : k.piece with
      | token kind spelling =>
        refine .inl ⟨_, rfl, rfl, fun t ht => ?_⟩
        obtain rfl : ⟨kind, spelling, _⟩ = t := Except.ok.inj ht
        exact isEof_eq_false_of_cut hk hp _
      | fault cause =>
        refine .inl ⟨_, rfl, rfl, fun t ht => ?_⟩
        cases ht
      | layout => exact .inr ⟨_, rfl⟩
      | unknown ch => exact .inr ⟨_, rfl⟩

theorem round_behind (hp : p ≤ text.length) :
    (behind text p).round =
        .stops ⟨.ok (.eof (.endOf text.toList)), [], behind text text.length⟩ ∨
      ∃ q, p < q ∧ q ≤ text.length ∧
        ((∃ found, (behind text p).round = .stops found ∧ found.cursor = behind text q ∧
            ∀ t, found.result = .ok t → t.isEof = false) ∨
          ∃ ws, (behind text p).round = .goesOn ws (behind text q)) := by
  obtain ⟨taken, rest, happ, hround⟩ := round_cases (behind text p)
  have hmove := moveTo_behind happ
  have hle := add_length_le happ hp
  rw [hmove] at hround
  rcases hround with ⟨rfl, hround⟩ | ⟨hne, hround⟩
  · have hq : p + taken.length = text.length := by
      have hl := congrArg List.length happ
      rw [rest_behind, List.length_drop, String.length_toList, List.append_nil] at hl
      omega
    rw [hq, location_behind_length] at hround
    exact .inl hround
  · have := List.length_pos_iff.2 hne
    exact .inr ⟨p + taken.length, by omega, hle, hround⟩

theorem Rounds.eq_scan {cs : List Cursor} {found : Scan} (h : c.Rounds cs found) :
    found = c.scan := by
  induction h with
  | stops h => rw [scan_eq_round, h]
  | goesOn h _ ih => rw [scan_eq_round, h, ih]

theorem Rounds.unique {cs cs' : List Cursor} {found found' : Scan} (h : c.Rounds cs found)
    (h' : c.Rounds cs' found') : cs = cs' := by
  induction h generalizing cs' found' with
  | stops h =>
    cases h' with
    | stops _ => rfl
    | goesOn h' _ => exact nomatch h.symm.trans h'
  | goesOn h _ ih =>
    cases h' with
    | stops h' => exact nomatch h.symm.trans h'
    | goesOn h' hr' =>
      obtain ⟨-, rfl⟩ := Round.goesOn.inj (h.symm.trans h')
      rw [ih hr']

theorem Rounds.iff_of_rounds {cs : List Cursor} {found : Scan} (h : c.Rounds cs found)
    (cs' : List Cursor) (found' : Scan) : c.Rounds cs' found' ↔ cs' = cs ∧ found' = c.scan := by
  constructor
  · intro h'
    exact ⟨h'.unique h, h'.eq_scan⟩
  · rintro ⟨rfl, rfl⟩
    exact h.eq_scan ▸ h

theorem passes_of_stops {q : Nat} {found : Scan} (h : (behind text p).round = .stops found)
    (hcursor : found.cursor = behind text q) (hq : q ≤ text.length)
    (hstops : p < q ∧ (∀ t, found.result = .ok t → t.isEof = false) ∨
      p ≤ q ∧ q = text.length ∧ found.result = .ok (.eof (.endOf text.toList))) :
    Passes text p [] q := by
  have hr : (behind text p).Rounds [] found := .stops h
  obtain rfl := hr.eq_scan
  refine ⟨hr.iff_of_rounds, hcursor, List.pairwise_singleton _ p, ?_, hq⟩
  simpa only [List.forall_mem_singleton] using hstops

theorem Passes.of_goesOn {p' q : Nat} {ps : List Nat} {ws : List Warning}
    (h : Passes text p' ps q) (hp : p < p')
    (hround : (behind text p).round = .goesOn ws (behind text p')) :
    Passes text p (p' :: ps) q := by
  have hscan := scan_eq_round (behind text p)
  rw [hround] at hscan
  have hr : (behind text p).Rounds ((p' :: ps).map (behind text)) (behind text p).scan := by
    rw [hscan]
    exact .goesOn hround ((h.rounds _ _).2 ⟨rfl, rfl⟩)
  have hlt : ∀ r ∈ p' :: ps, p < r := by
    rw [List.forall_mem_cons]
    exact ⟨hp, fun r hr => Nat.lt_trans hp (List.rel_of_pairwise_cons h.forward hr)⟩
  have hresult : (behind text p).scan.result = (behind text p').scan.result := by rw [hscan]
  refine ⟨hr.iff_of_rounds, ?_, List.pairwise_cons.2 ⟨hlt, h.forward⟩, ?_, h.le_length⟩
  · rw [hscan]
    exact h.cursor
  · rw [hresult]
    rcases h.stops with ⟨hq, ht⟩ | ⟨hq, hend⟩
    · have hpq := Nat.lt_trans hp (hq p' (List.mem_cons_self ..))
      exact .inl ⟨List.forall_mem_cons.2 ⟨hpq, hq⟩, ht⟩
    · have hpq := Nat.le_trans (Nat.le_of_lt hp) (hq p' (List.mem_cons_self ..))
      exact .inr ⟨List.forall_mem_cons.2 ⟨hpq, hq⟩, hend⟩

theorem exists_passes (text : String) {p : Nat} (hp : p ≤ text.length) :
    ∃ ps q, Passes text p ps q := by
  -- By induction on the characters that are left: a round that goes on takes one at least.
  induction hn : text.length - p using Nat.strongRecOn generalizing p with
  | _ n ih =>
    rcases round_behind hp with hround | ⟨q, hpq, hq, ⟨found, hround, hcursor, ht⟩ | ⟨ws, hround⟩⟩
    · exact ⟨[], text.length, passes_of_stops hround rfl (Nat.le_refl _) (.inr ⟨hp, rfl, rfl⟩)⟩
    · exact ⟨[], q, passes_of_stops hround hcursor hq (.inl ⟨hpq, ht⟩)⟩
    · obtain ⟨ps, q', h⟩ := ih (text.length - q) (by omega) hq rfl
      exact ⟨q :: ps, q', h.of_goesOn hpq hround⟩

end Cursor

/-! ### Results -/

namespace Script

variable {text : String} {s : Script}

theorem cursor_scan {p q : Nat} {ps : List Nat} (hs : s.cursor = .behind text p)
    (h : Cursor.Passes text p ps q) : (TokenSource.scan s).2.cursor = .behind text q := by
  rw [← h.cursor, ← hs]
  rfl

/-- Whatever a script behind some of the characters of a text is scanned for, it stays behind some
of them. -/
theorem exists_behind_of_scans {s' : Script} {rs : List Lookahead.Answer}
    (hr : Lookahead.Scans s rs s') (h : ∃ p ≤ text.length, s.cursor = .behind text p) :
    ∃ p ≤ text.length, s'.cursor = .behind text p := by
  induction hr with
  | nil => exact h
  | @cons s s₁ s₂ r rs hscan _ ih =>
    obtain ⟨p, hp, hs⟩ := h
    obtain ⟨ps, q, hpass⟩ := Cursor.exists_passes text hp
    have hs₁ := cursor_scan hs hpass
    rw [hscan] at hs₁
    exact ih ⟨q, hpass.le_length, hs₁⟩

theorem answer_of_end (hs : s.cursor = .behind text text.length) (i : Nat) :
    (⟨s, []⟩ : Lexer).answer i = .ok (.eof (.endOf text.toList)) := by
  have hrest : cut? s.cursor.rest = none := by
    rw [hs, Cursor.rest_behind, ← String.length_toList, List.drop_length]
    rfl
  have hscan := scan_of_cut_eq_none hrest
  rw [hs, Cursor.location_behind_length] at hscan
  induction i with
  | zero => exact congrArg Prod.fst hscan
  | succ i ih =>
    rw [← ih, ← Lookahead.answer_next]
    exact congrArg (fun r => (⟨r.2, []⟩ : Lexer).answer i) hscan

theorem exists_ends {p : Nat} (hp : p ≤ text.length) (hs : s.cursor = .behind text p) :
    ∃ m ≤ text.length - p,
      (∀ i < m, ∀ t, (⟨s, []⟩ : Lexer).answer i = .ok t → t.isEof = false) ∧
        ∀ i, m ≤ i → (⟨s, []⟩ : Lexer).answer i = .ok (.eof (.endOf text.toList)) := by
  -- By induction on the characters that are left: a result other than the end takes one at least.
  induction hn : text.length - p using Nat.strongRecOn generalizing p s with
  | _ n ih =>
    obtain ⟨ps, q, h⟩ := Cursor.exists_passes text hp
    have hs' := cursor_scan hs h
    have hfirst : (⟨s, []⟩ : Lexer).answer 0 = (Cursor.behind text p).scan.result := by
      rw [← hs]
      rfl
    rcases h.stops with ⟨hlt, ht⟩ | ⟨-, rfl, hr⟩
    · have hpq := hlt p (List.mem_cons_self ..)
      have hq := h.le_length
      obtain ⟨m, hm, hbefore, hend⟩ := ih (text.length - q) (by omega) hq hs' rfl
      refine ⟨m + 1, by omega, fun i hi => ?_, fun i hi => ?_⟩
      · cases i with
        | zero => rwa [hfirst]
        | succ i => exact hbefore i (Nat.lt_of_succ_lt_succ hi)
      · obtain ⟨i, rfl⟩ := Nat.exists_eq_add_of_le' (Nat.le_trans (Nat.le_add_left 1 m) hi)
        exact hend i (Nat.le_of_succ_le_succ hi)
    · refine ⟨0, Nat.zero_le _, fun i hi => absurd hi (Nat.not_lt_zero i), fun i _ => ?_⟩
      cases i with
      | zero => rw [hfirst, hr]
      | succ i => exact answer_of_end hs' i

end Script

/-- Scanning goes forward, also behind faults. From behind whatever number of characters it begins,
each of its rounds that goes on takes one of them at least, and so does what it finds, unless that
is the end of the text. However a lexer is called, it has read some of the characters of its text,
never more than there are. So when it is asked for one result after the other, it gives at most as
many tokens and faults as there are characters, and then the end of input, at the same place each
time. -/
theorem scanning_progresses (text : String) :
    (∀ p ≤ text.length, ∃ ps q, Cursor.Passes text p ps q) ∧
      (∀ cs, ∃ p ≤ text.length,
        ((Lexer.ofString text).calls cs).2.source.cursor = .behind text p) ∧
      ∃ m ≤ text.length,
        (∀ i < m, ∀ t, (Lexer.ofString text).answer i = .ok t → t.isEof = false) ∧
          ∀ i, m ≤ i → (Lexer.ofString text).answer i = .ok (.eof (.endOf text.toList)) := by
  refine ⟨fun p hp => Cursor.exists_passes text hp, fun cs => ?_, ?_⟩
  · obtain ⟨rs, hr, -⟩ := Lookahead.scans_calls (Lexer.ofString text) cs
    exact Script.exists_behind_of_scans hr ⟨0, Nat.zero_le _, rfl⟩
  · exact Script.exists_ends (s := Script.ofString text) (Nat.zero_le _) rfl

theorem scanning_progresses_fault :
    1 ≤ "$ 01".length ∧ ∃ ps q, Cursor.Passes "$ 01" 1 ps q :=
  ⟨by decide, (scanning_progresses "$ 01").1 1 (by decide)⟩

end FlatScript
