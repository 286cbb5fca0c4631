import FlatScript.Proofs.Cut
import FlatScript.Proofs.Stream

namespace FlatScript

theorem Location.past_start (cs : List Char) : Location.start.past cs = .endOf cs := by
  have h : ∀ rs : List Char, Location.start.past rs.reverse = .endOf rs.reverse := by
    intro rs
    induction rs with
    | nil => rfl
    | cons c rs ih =>
      rw [List.reverse_cons, past_append, ih]
      by_cases hc : c = '\n'
      · simp [past, advance, endOf, hc]
      · simp [past, advance, endOf, hc]
  simpa using h cs.reverse

theorem Location.endOf_past (before cs : List Char) :
    (Location.endOf before).past cs = .endOf (before ++ cs) := by
  rw [← past_start, ← past_append, past_start]

namespace Cursor

def between (before cs : List Char) : Cursor := ⟨cs, .endOf before⟩

theorem between_moveTo (before cs taken rest : List Char) :
    (between before cs).moveTo taken rest = between (before ++ taken) rest := by
  simp [between, moveTo, Location.endOf_past]

theorem scan_nil (before : List Char) :
    (between before []).scan = ⟨.ok (.eof (.endOf before)), [], between before []⟩ := by
  rw [scan]
  split
  next => rfl
  next k hk => simp [between, cut?] at hk

variable (before : List Char) {cs : List Char} {k : Cut}

theorem scan_of_layout (h : cut? cs = some k) (hp : k.piece = .layout) :
    (between before cs).scan = (between (before ++ k.spelling) k.rest).scan := by
  rw [scan]
  split
  next hn => simp [between, h] at hn
  next k' hk =>
    obtain rfl : k = k' := by simpa [between, h] using hk
    simp [hp, between_moveTo]

theorem scan_of_unknown {c : Char} (h : cut? cs = some k) (hp : k.piece = .unknown c) :
    (between before cs).scan =
      { (between (before ++ k.spelling) k.rest).scan with
        warnings := .unknownCharacter c (.endOf before) ::
          (between (before ++ k.spelling) k.rest).scan.warnings } := by
  rw [scan]
  split
  next hn => simp [between, h] at hn
  next k' hk =>
    obtain rfl : k = k' := by simpa [between, h] using hk
    simp [hp, between_moveTo]
    simp [between]

theorem scan_of_token {kind : Token.Kind} {text : String} (h : cut? cs = some k)
    (hp : k.piece = .token kind text) :
    (between before cs).scan =
      ⟨.ok ⟨kind, text, .endOf before⟩, [], between (before ++ k.spelling) k.rest⟩ := by
  rw [scan]
  split
  next hn => simp [between, h] at hn
  next k' hk =>
    obtain rfl : k = k' := by simpa [between, h] using hk
    simp [hp, between_moveTo]
    simp [between]

theorem scan_of_fault {cause : LexError.Cause} (h : cut? cs = some k)
    (hp : k.piece = .fault cause) :
    (between before cs).scan.result = .error ⟨cause, .endOf before⟩ := by
  rw [scan]
  split
  next hn => simp [between, h] at hn
  next k' hk =>
    obtain rfl : k = k' := by simpa [between, h] using hk
    simp [hp, between]

theorem scan_layout {behind g : List Char} (h : Layout behind g) :
    ∃ ws, (between before (g ++ behind)).scan =
      { (between (before ++ g) behind).scan with
        warnings := ws ++ (between (before ++ g) behind).scan.warnings } := by
  induction h generalizing before with
  | nil => exact ⟨[], by simp⟩
  | @blank c g hc _ ih =>
    obtain ⟨ws, hs⟩ := ih (before ++ [c])
    refine ⟨ws, ?_⟩
    have hl := scan_of_layout before (cut_blank hc (g ++ behind)) rfl
    rw [List.cons_append, hl, hs]
    simp
  | @lineComment body g hb he _ ih =>
    obtain ⟨ws, hs⟩ := ih (before ++ '/' :: '/' :: body)
    refine ⟨ws, ?_⟩
    have hl := scan_of_layout before (cut_lineComment hb he) rfl
    rw [List.append_assoc, hl, hs]
    simp
  | @blockComment body g hb _ ih =>
    obtain ⟨ws, hs⟩ := ih (before ++ ('/' :: '*' :: body ++ ['*', '/']))
    refine ⟨ws, ?_⟩
    have hl := scan_of_layout before (cut_blockComment hb (g ++ behind)) rfl
    rw [List.append_assoc, hl, hs]
    simp
  | @unknown c g hc _ ih =>
    obtain ⟨ws, hs⟩ := ih (before ++ [c])
    refine ⟨.unknownCharacter c (.endOf before) :: ws, ?_⟩
    have hl := scan_of_unknown before (cut_unknown hc (g ++ behind)) rfl
    rw [List.cons_append, hl, hs]
    simp

end Cursor

def Lexer.between (before cs : List Char) (ws : List Warning) : Lexer :=
  { source := ⟨.between before cs, ws⟩ }

theorem Lexer.next_between (before cs : List Char) (ws : List Warning) :
    (Lexer.between before cs ws).next =
      ((Cursor.between before cs).scan.result,
        { source := ⟨(Cursor.between before cs).scan.cursor,
            ws ++ (Cursor.between before cs).scan.warnings⟩ }) := rfl

theorem Lexer.next_layout {behind g : List Char} (h : Layout behind g) (before : List Char)
    (ws : List Warning) :
    ∃ ws', (Lexer.between before (g ++ behind) ws).next =
      (Lexer.between (before ++ g) behind ws').next := by
  obtain ⟨us, hs⟩ := Cursor.scan_layout before h
  refine ⟨ws ++ us, ?_⟩
  rw [next_between, next_between, hs]
  simp

theorem Lexer.next_lexeme {l : Lexeme} (hp : l.IsProper) {behind : List Char}
    (he : l.EndsBefore behind) (before : List Char) (ws : List Warning) :
    (Lexer.between before (l.spelling ++ behind) ws).next =
      (.ok (l.token (.endOf before)), Lexer.between (before ++ l.spelling) behind ws) := by
  rw [next_between, Cursor.scan_of_token before (cut_lexeme hp he) rfl]
  simp [Lexer.between, Lexeme.token]

theorem Lexeme.IsProper.isEof_token {l : Lexeme} (hp : l.IsProper) (place : Location) :
    (l.token place).isEof = false := by
  obtain ⟨kind, text⟩ := l
  cases kind with
  | eof => exact hp.elim
  | _ => rfl

/-- Draining the lexer in front of a tiled text gives the lexemes that tile it, and then what
draining it behind that text gives. -/
theorem drain_of_tiled {behind before cs : List Char} {ts : List Token}
    (h : Tiled behind before cs ts) (ws : List Warning) :
    ∃ ws', (Lexer.between before (cs ++ behind) ws).drain.1 =
      (Lexer.between (before ++ cs) behind ws').drain.1.map (ts ++ ·) := by
  induction h generalizing ws with
  | @layout before g hg =>
    obtain ⟨ws', hn⟩ := Lexer.next_layout hg before ws
    refine ⟨ws', ?_⟩
    rw [Lookahead.drain_congr hn]
    cases (Lexer.between (before ++ g) behind ws').drain.1 <;> rfl
  | @lexeme before g cs l ts hg hp he _ ih =>
    obtain ⟨ws₁, hn⟩ := Lexer.next_layout hg before ws
    obtain ⟨ws', hd⟩ := ih ws₁
    have hl := Lexer.next_lexeme hp he (before ++ g) ws₁
    refine ⟨ws', ?_⟩
    have ht : g ++ l.spelling ++ cs ++ behind = g ++ (l.spelling ++ cs ++ behind) := by simp
    rw [ht, Lookahead.drain_congr hn, List.append_assoc,
      Lookahead.drain_of_token hl (hp.isEof_token _), hd]
    simp only [List.append_assoc]
    cases (Lexer.between (before ++ (g ++ (l.spelling ++ cs))) behind ws').drain.1 <;> rfl

theorem Tiled.layout_append {behind before g cs : List Char} {ts : List Token}
    (h : Tiled behind (before ++ g) cs ts)
    (hg : ∀ g' rest, g' ++ rest = cs ++ behind → Layout rest g' → Layout rest (g ++ g')) :
    Tiled behind before (g ++ cs) ts := by
  cases h with
  | layout hg' => exact .layout (hg _ behind rfl hg')
  | @lexeme _ g' cs l ts hg' hp he ht =>
    have hl := hg g' (l.spelling ++ cs ++ behind) (by simp) hg'
    rw [List.append_assoc] at ht
    have ht' : Tiled behind (before ++ (g ++ g') ++ l.spelling) cs ts := by simpa using ht
    simpa using Tiled.lexeme hl hp he ht'

theorem Cut.IsRegular.exists_tiled {k : Cut} (h : k.IsRegular) {before head behind : List Char}
    {ts : List Token} (hr : k.rest = head ++ behind)
    (ht : Tiled behind (before ++ k.spelling) head ts) :
    (∃ cause : LexError.Cause, cause.Begins (k.spelling ++ k.rest)) ∨
      ∃ us, Tiled behind before (k.spelling ++ head) us := by
  cases h with
  | blank hc => exact .inr ⟨ts, ht.layout_append fun _ _ _ hg => .blank hc hg⟩
  | lineComment hb he =>
    refine .inr ⟨ts, ht.layout_append fun g rest hgr hg => .lineComment hb ?_ hg⟩
    rw [hgr, ← hr]
    exact he
  | blockComment hb => exact .inr ⟨ts, ht.layout_append fun _ _ _ hg => .blockComment hb hg⟩
  | unknown hc => exact .inr ⟨ts, ht.layout_append fun _ _ _ hg => .unknown hc hg⟩
  | @lexeme l rest hp he =>
    obtain rfl : rest = head ++ behind := hr
    have ht' : Tiled behind (before ++ [] ++ l.spelling) head ts := by simpa using ht
    exact .inr ⟨_, .lexeme .nil hp he ht'⟩
  | fault hf => exact .inl ⟨_, hf⟩

/-- Every text is tiled up to its end or to a fault. -/
theorem exists_tiled (before cs : List Char) :
    ∃ ts head behind, cs = head ++ behind ∧ Tiled behind before head ts ∧
      (behind = [] ∨ ∃ cause : LexError.Cause, cause.Begins behind) := by
  cases h : cut? cs with
  | none =>
    have hc : cs = [] := by
      cases cs with
      | nil => rfl
      | cons c cs => simp [cut?] at h
    exact ⟨[], [], [], hc, .layout .nil, .inl rfl⟩
  | some k =>
    have hlt := cut_rest_length h
    have happ := cut_append h
    obtain ⟨ts, head, behind, hr, ht, hb⟩ := exists_tiled (before ++ k.spelling) k.rest
    obtain ⟨cause, hf⟩ | ⟨us, hu⟩ := (isRegular_of_cut h).exists_tiled hr ht
    · exact ⟨[], [], cs, rfl, .layout .nil, .inr ⟨cause, happ ▸ hf⟩⟩
    · exact ⟨us, k.spelling ++ head, behind, by rw [← happ, hr, List.append_assoc], hu, hb⟩
termination_by cs.length

theorem drain_end (before : List Char) (ws : List Warning) :
    (Lexer.between before [] ws).drain.1 = .ok [.eof (.endOf before)] := by
  have hn := Lexer.next_between before [] ws
  rw [Cursor.scan_nil] at hn
  exact Lookahead.drain_of_eof hn rfl

theorem drain_fault {cause : LexError.Cause} {cs : List Char} (h : cause.Begins cs)
    (before : List Char) (ws : List Warning) :
    (Lexer.between before cs ws).drain.1 = .error ⟨cause, .endOf before⟩ := by
  obtain ⟨k, hk, hp⟩ := cut_of_begins h
  have hn := Lexer.next_between before cs ws
  rw [Cursor.scan_of_fault before hk hp] at hn
  exact Lookahead.drain_of_error hn

theorem tokenize_of_tiled {text : String} {ts : List Token} (h : Tiled [] [] text.toList ts) :
    (tokenize text).1 = .ok (ts ++ [.eof (.endOf text.toList)]) := by
  obtain ⟨ws, hd⟩ := drain_of_tiled h []
  rw [drain_end, List.append_nil] at hd
  exact hd

theorem tokenize_of_begins {text : String} {head behind : List Char} {ts : List Token}
    {cause : LexError.Cause} (ht : text.toList = head ++ behind) (h : Tiled behind [] head ts)
    (hb : cause.Begins behind) : (tokenize text).1 = .error ⟨cause, .endOf head⟩ := by
  obtain ⟨ws, hd⟩ := drain_of_tiled h []
  rw [drain_fault hb, ← ht] at hd
  exact hd

theorem Tiled.isProper {behind before cs : List Char} {ts : List Token}
    (h : Tiled behind before cs ts) : ∀ t ∈ ts, t.lexeme.IsProper := by
  induction h with
  | layout => simp
  | lexeme _ hp _ _ ih => exact List.forall_mem_cons.2 ⟨hp, ih⟩

theorem tokenize_eq_ok_iff {text : String} {ts : List Token} :
    (tokenize text).1 = .ok ts ↔
      ∃ us, ts = us ++ [.eof (.endOf text.toList)] ∧ Tiled [] [] text.toList us := by
  constructor
  · intro h
    obtain ⟨us, head, behind, happ, ht, rfl | ⟨cause, hc⟩⟩ := exists_tiled [] text.toList
    · rw [List.append_nil] at happ
      rw [← happ] at ht
      rw [tokenize_of_tiled ht, Except.ok.injEq] at h
      exact ⟨us, h.symm, ht⟩
    · simp [tokenize_of_begins happ ht hc] at h
  · rintro ⟨us, rfl, ht⟩
    exact tokenize_of_tiled ht

theorem tokenize_eq_error_iff {text : String} {e : LexError} :
    (tokenize text).1 = .error e ↔
      ∃ us head behind, text.toList = head ++ behind ∧ Tiled behind [] head us ∧
        e.cause.Begins behind ∧ e.location = .endOf head := by
  constructor
  · intro h
    obtain ⟨us, head, behind, happ, ht, rfl | ⟨cause, hc⟩⟩ := exists_tiled [] text.toList
    · rw [List.append_nil] at happ
      rw [← happ] at ht
      simp [tokenize_of_tiled ht] at h
    · rw [tokenize_of_begins happ ht hc, Except.error.injEq] at h
      subst h
      exact ⟨us, head, behind, happ, ht, hc, rfl⟩
  · rintro ⟨us, head, behind, happ, ht, hc, hl⟩
    rw [tokenize_of_begins happ ht hc, ← hl]

theorem tiled_of_tokenize {text : String} {ts : List Token} {t : Token}
    (h : (tokenize text).1 = .ok (ts ++ [t])) :
    t = .eof (.endOf text.toList) ∧ Tiled [] [] text.toList ts := by
  obtain ⟨us, hus, ht⟩ := tokenize_eq_ok_iff.1 h
  obtain ⟨rfl, hl⟩ := List.append_inj' hus rfl
  exact ⟨(List.cons.inj hl).1, ht⟩

/-- The last token of a text is the end of input; all others are lexemes as they should be. -/
theorem isProper_of_tokenize {text : String} {ts : List Token} {t : Token}
    (h : (tokenize text).1 = .ok (ts ++ [t])) :
    t = .eof (.endOf text.toList) ∧ ∀ u ∈ ts, u.lexeme.IsProper :=
  (tiled_of_tokenize h).imp_right Tiled.isProper

/-- The tokens of a text are the lexemes that tile it, with the end of input behind them. A text
has no tokens if a fault begins behind a part of it that is tiled, and then that fault is named. -/
theorem tokenize_tiling (text : String) :
    (∀ ts, (tokenize text).1 = .ok ts ↔
      ∃ us, ts = us ++ [.eof (.endOf text.toList)] ∧ Tiled [] [] text.toList us) ∧
    (∀ e, (tokenize text).1 = .error e ↔
      ∃ us head behind, text.toList = head ++ behind ∧ Tiled behind [] head us ∧
        e.cause.Begins behind ∧ e.location = .endOf head) :=
  ⟨fun _ => tokenize_eq_ok_iff, fun _ => tokenize_eq_error_iff⟩

end FlatScript
