import FlatScript.Lexer
import FlatScript.Proofs.Lexeme

namespace FlatScript

theorem hasClose_cons_iff {c : Char} {cs : List Char} :
    HasClose (c :: cs) ↔ (c = '*' ∧ cs.head? = some '/') ∨ HasClose cs := by
  rw [HasClose, List.infix_cons_iff]
  cases cs with
  | nil => simp [HasClose]
  | cons d ds => simp [HasClose, List.cons_prefix_cons, eq_comm]

theorem splitAfterClose_eq_none_iff {cs : List Char} :
    splitAfterClose cs = none ↔ ¬ HasClose cs := by
  fun_induction splitAfterClose cs with
  | case1 => simp [HasClose]
  | case2 => simp [hasClose_cons_iff]
  | case3 c cs hne ih =>
    have hc : ¬ (c = '*' ∧ cs.head? = some '/') := by
      rintro ⟨hc, hs⟩
      obtain ⟨ds, rfl⟩ := List.head?_eq_some_iff.1 hs
      exact hne ds hc rfl
    simp [hasClose_cons_iff, hc, ih]

theorem splitAfterClose_eq_some {cs comment rest : List Char}
    (h : splitAfterClose cs = some (comment, rest)) :
    ∃ body, comment = body ++ ['*', '/'] ∧ ¬ HasClose (body ++ ['*']) := by
  fun_induction splitAfterClose cs generalizing comment with
  | case1 => simp at h
  | case2 cs =>
    obtain ⟨rfl, rfl⟩ : ['*', '/'] = comment ∧ _ := by simpa using h
    refine ⟨[], rfl, ?_⟩
    rw [List.nil_append, hasClose_cons_iff]
    simp [HasClose]
  | case3 c cs hne ih =>
    obtain ⟨⟨tail, rest'⟩, hs, ht⟩ := Option.map_eq_some_iff.1 h
    obtain ⟨rfl, rfl⟩ : c :: tail = comment ∧ _ := by simpa using ht
    obtain ⟨body, rfl, hb⟩ := ih hs
    refine ⟨c :: body, rfl, ?_⟩
    rw [List.cons_append, hasClose_cons_iff]
    rintro (⟨hc, hh⟩ | hb')
    · cases body with
      | nil => simp at hh
      | cons d ds =>
        obtain rfl : d = '/' := by simpa using hh
        exact hne _ hc (splitAfterClose_append hs).symm
    · exact hb hb'

theorem splitAfterClose_append_close {body : List Char} (hb : ¬ HasClose (body ++ ['*']))
    (rest : List Char) :
    splitAfterClose (body ++ ['*', '/'] ++ rest) = some (body ++ ['*', '/'], rest) := by
  induction body with
  | nil => rfl
  | cons c body ih =>
    rw [List.cons_append, hasClose_cons_iff, not_or] at hb
    have hs := ih hb.2
    simp only [List.cons_append]
    rw [splitAfterClose]
    · rw [hs]
      rfl
    · intro ds hc hd
      cases body with
      | nil => simp at hd
      | cons d body =>
        obtain ⟨rfl, -⟩ : d = '/' ∧ _ := by simpa using hd
        exact hb.1 ⟨hc, rfl⟩

theorem isWordStart_of_isBlank {c : Char} (h : isBlank c = true) : isWordStart c = false := by
  simp only [isBlank, Bool.or_eq_true, beq_iff_eq] at h
  obtain ((rfl | rfl) | rfl) | rfl := h <;> decide

theorem isBlank_of_isWordStart {c : Char} (h : isWordStart c = true) : isBlank c = false := by
  cases hb : isBlank c with
  | false => rfl
  | true => simp [isWordStart_of_isBlank hb] at h

theorem isWordStart_of_isDigit {c : Char} (h : c.isDigit = true) : isWordStart c = false := by
  have hd : 48 ≤ c.toNat ∧ c.toNat ≤ 57 := by
    simpa using Char.isDigit_iff_toNat.1 h
  have ha : c.isAlpha = false := by
    have hn : c.val.toNat = c.toNat := rfl
    delta Char.isAlpha Char.isUpper Char.isLower
    simp [UInt32.le_iff_toNat_le]
    omega
  have hu : c ≠ '_' := by
    rintro rfl
    simp at hd
  have hh : Text.isHan c = false := by
    simp [Text.isHan, Text.hanRanges]
    omega
  simp [isWordStart, ha, hu, hh]

theorem isBlank_of_isDigit {c : Char} (h : c.isDigit = true) : isBlank c = false := by
  cases hb : isBlank c with
  | false => rfl
  | true =>
    simp only [isBlank, Bool.or_eq_true, beq_iff_eq] at hb
    obtain ((rfl | rfl) | rfl) | rfl := hb <;> simp at h

theorem cut_blank {c : Char} (h : isBlank c = true) (cs : List Char) :
    cut? (c :: cs) = some ⟨.layout, [c], cs⟩ := by
  simp [cut?, h]

theorem cut_word {c : Char} (h : isWordStart c = true) (cs : List Char) :
    cut? (c :: cs) = some (.word (c :: cs)) := by
  simp [cut?, h, isBlank_of_isWordStart h]

theorem cut_quote (cs : List Char) : cut? ('"' :: cs) = some (.string cs) := rfl

theorem cut_separator {c : Char} (h : c ∈ separatorChars) (cs : List Char) :
    cut? (c :: cs) = some ⟨.token .separator (.ofList [c]), [c], cs⟩ := by
  have hc : separatorChars.all (fun c => !isBlank c && !isWordStart c && c != '"') = true := by
    decide
  have hp := List.all_eq_true.1 hc c h
  simp only [Bool.and_eq_true, Bool.not_eq_true', bne_iff_ne] at hp
  obtain ⟨⟨hb, hw⟩, hq⟩ := hp
  simp [cut?, hb, hw, hq, h]

theorem cut_colon (cs : List Char) : cut? (':' :: cs) = some (.colon cs) := rfl

theorem cut_slash (cs : List Char) : cut? ('/' :: cs) = some (.slash cs) := rfl

theorem cut_digit {c : Char} (h : c.isDigit = true) (cs : List Char) :
    cut? (c :: cs) = some (.number (c :: cs)) := by
  have hq : c ≠ '"' := by rintro rfl; simp at h
  have hs : c ∉ separatorChars := by
    intro hc
    have hd : separatorChars.all (!·.isDigit) = true := by decide
    simpa [h] using List.all_eq_true.1 hd c hc
  have hc : c ≠ ':' := by rintro rfl; simp at h
  have hl : c ≠ '/' := by rintro rfl; simp at h
  simp [cut?, isBlank_of_isDigit h, isWordStart_of_isDigit h, hq, hs, hc, hl, h]

theorem cut_point (cs : List Char) : cut? ('.' :: cs) = some (.point cs) := rfl

theorem cut_operator {c : Char} (h : c ∈ operatorChars) (hs : c ≠ '/') (cs : List Char) :
    cut? (c :: cs) = some (.operator c cs) := by
  have hc : operatorChars.all (fun c => !isBlank c && !isWordStart c && c != '"' &&
      !decide (c ∈ separatorChars) && c != ':' && !c.isDigit && c != '.') = true := by decide
  have hp := List.all_eq_true.1 hc c h
  simp only [Bool.and_eq_true, Bool.not_eq_true', bne_iff_ne, decide_eq_false_iff_not] at hp
  obtain ⟨⟨⟨⟨⟨⟨h₁, h₂⟩, h₃⟩, h₄⟩, h₅⟩, h₆⟩, h₇⟩ := hp
  simp [cut?, h₁, h₂, h₃, h₄, h₅, h₆, h₇, hs, h]

theorem cut_unknown {c : Char} (h : IsUnknown c) (cs : List Char) :
    cut? (c :: cs) = some ⟨.unknown c, [c], cs⟩ := by
  obtain ⟨h₁, h₂, h₃, h₄, h₅, h₆, h₇, h₈⟩ := h
  have hs : c ≠ '/' := by
    rintro rfl
    exact h₈ (by decide)
  simp [cut?, h₁, h₂, h₃, h₄, h₅, h₆, h₇, h₈, hs]

namespace Cut

/-- The pieces of a text that the rules for lexemes and layout allow. -/
inductive IsRegular : Cut → Prop
  | blank {c : Char} {rest : List Char} (hc : isBlank c = true) : IsRegular ⟨.layout, [c], rest⟩
  | lineComment {body rest : List Char} (hb : '\n' ∉ body) (he : ∀ c ∈ rest.head?, c = '\n') :
      IsRegular ⟨.layout, '/' :: '/' :: body, rest⟩
  | blockComment {body rest : List Char} (hb : ¬ HasClose (body ++ ['*'])) :
      IsRegular ⟨.layout, '/' :: '*' :: body ++ ['*', '/'], rest⟩
  | unknown {c : Char} {rest : List Char} (hc : IsUnknown c) : IsRegular ⟨.unknown c, [c], rest⟩
  | lexeme {l : Lexeme} {rest : List Char} (hp : l.IsProper) (he : l.EndsBefore rest) :
      IsRegular ⟨.token l.kind l.text, l.spelling, rest⟩
  | fault {cause : LexError.Cause} {spelling rest : List Char}
      (hf : cause.Begins (spelling ++ rest)) : IsRegular ⟨.fault cause, spelling, rest⟩

theorem IsRegular.ofChars {kind : Token.Kind} {cs rest : List Char} (hk : kind ≠ .stringLiteral)
    (hp : Lexeme.IsProper ⟨kind, .ofList cs⟩) (he : Lexeme.EndsBefore ⟨kind, .ofList cs⟩ rest) :
    IsRegular ⟨.token kind (.ofList cs), cs, rest⟩ := by
  have hs : Lexeme.spelling ⟨kind, .ofList cs⟩ = cs := by
    cases kind <;> first | exact absurd rfl hk | exact String.toList_ofList
  have h := IsRegular.lexeme hp he
  rwa [hs] at h

end Cut

theorem ofWord_isProper {cs : List Char} (h : IsWord cs) :
    Lexeme.IsProper ⟨.ofWord (.ofList cs), .ofList cs⟩ := by
  unfold Token.Kind.ofWord
  split
  next hn => exact hn
  next hn =>
    split
    next hb => exact hb
    next hb =>
      rw [not_or] at hb
      split
      next hk => exact hk
      next hk => exact ⟨by simpa using h, hk, hn, hb⟩

theorem ofWord_goesOn_iff {word : String} {c : Char} :
    Lexeme.GoesOn ⟨.ofWord word, word⟩ c ↔ isWordPart c = true := by
  unfold Token.Kind.ofWord
  split
  · exact Iff.rfl
  · split
    · exact Iff.rfl
    · split <;> exact Iff.rfl

theorem ofWord_ne_stringLiteral (word : String) : Token.Kind.ofWord word ≠ .stringLiteral := by
  unfold Token.Kind.ofWord
  split
  · simp
  · split
    · simp
    · split <;> simp

theorem isDigits_takeWhile (cs : List Char) : IsDigits (cs.takeWhile Char.isDigit) := by
  exact List.all_eq_true.1 List.all_takeWhile

theorem head_dropWhile_eq_false (p : Char → Bool) (cs : List Char) :
    ∀ c ∈ (cs.dropWhile p).head?, p c = false := by
  intro c hc
  have h := List.head?_dropWhile_not p cs
  simpa [Option.mem_def.1 hc] using h

namespace Cut

theorem word_isRegular {c : Char} (h : isWordStart c = true) (cs : List Char) :
    (word (c :: cs)).IsRegular := by
  have hp : isWordPart c = true := by simp [isWordPart, h]
  have hw : IsWord ((c :: cs).takeWhile isWordPart) := by
    rw [List.takeWhile_cons_of_pos hp]
    exact ⟨h, List.all_eq_true.1 List.all_takeWhile⟩
  refine .ofChars (ofWord_ne_stringLiteral _) (ofWord_isProper hw) ?_
  intro d hd
  rw [ofWord_goesOn_iff]
  simp [head_dropWhile_eq_false _ _ d hd]

theorem string_isRegular (cs : List Char) : (string cs).IsRegular := by
  have hq : '"' ∉ cs.takeWhile (· != '"') := by
    intro hm
    simpa using List.all_eq_true.1 (List.all_takeWhile (p := (· != '"')) (l := cs)) _ hm
  unfold string
  split
  next hr =>
    have ht := List.takeWhile_append_dropWhile (p := (· != '"')) (l := cs)
    rw [hr, List.append_nil] at ht
    exact .fault ⟨_, List.append_nil _, hq⟩
  next quote rest hr =>
    obtain rfl : quote = '"' := by
      have hh := head_dropWhile_eq_false (· != '"') cs quote (by simp [hr])
      simpa using hh
    have hp : (Lexeme.string (.ofList (cs.takeWhile (· != '"')))).IsProper := by
      simpa [Lexeme.IsProper, Lexeme.string] using hq
    have h := IsRegular.lexeme hp fun c (_ : c ∈ rest.head?) hg => hg
    simpa [Lexeme.spelling, Lexeme.string] using h

theorem fraction_isRegular {whole cs : List Char}
    (h : IsWhole whole ∨ whole = [] ∧ cs.takeWhile Char.isDigit ≠ []) :
    (fraction whole cs).IsRegular := by
  refine .ofChars (by simp) ?_ ?_
  · simpa [Lexeme.IsProper] using ⟨whole, _, rfl, isDigits_takeWhile cs, h⟩
  · intro c hc
    simp [Lexeme.GoesOn, head_dropWhile_eq_false _ _ c hc]

theorem isWhole_of_ne {cs : List Char} (hne : cs ≠ []) (hd : IsDigits cs)
    (hz : ∀ d ds, cs ≠ '0' :: d :: ds) : IsWhole cs := by
  refine ⟨hne, hd, ?_⟩
  intro hh
  obtain ⟨ds, rfl⟩ := List.head?_eq_some_iff.1 hh
  cases ds with
  | nil => rfl
  | cons d ds => exact absurd rfl (hz d ds)

theorem number_isRegular {c : Char} (h : c.isDigit = true) (cs : List Char) :
    (number (c :: cs)).IsRegular := by
  have hd := isDigits_takeWhile (c :: cs)
  have hne : (c :: cs).takeWhile Char.isDigit ≠ [] := by simp [List.takeWhile_cons_of_pos h]
  unfold number
  split
  next d ds hw => exact .fault ⟨d, _, rfl, hd d (by simp [hw])⟩
  next hz => exact fraction_isRegular (.inl (isWhole_of_ne hne hd hz))
  next hz hp =>
    refine .ofChars (by simp) ?_ ?_
    · simpa [Lexeme.IsProper] using isWhole_of_ne hne hd hz
    · intro d hh
      rintro (hd' | rfl)
      · simp [head_dropWhile_eq_false _ _ d hh] at hd'
      · obtain ⟨rest, hr⟩ := List.head?_eq_some_iff.1 hh
        exact hp rest hr

theorem separator_isRegular {text : String} {rest : List Char}
    (hp : (Lexeme.separator text).IsProper) (he : (Lexeme.separator text).EndsBefore rest) :
    IsRegular ⟨.token .separator text, text.toList, rest⟩ :=
  .lexeme hp he

theorem separatorChar_isRegular {c : Char} (h : c ∈ separatorChars) (rest : List Char) :
    IsRegular ⟨.token .separator (.ofList [c]), [c], rest⟩ := by
  refine .ofChars (by simp) (.inl ⟨c, h, String.toList_ofList⟩) ?_
  rintro d - (⟨hp, -⟩ | ⟨hp, -⟩)
  · obtain rfl : c = '.' := by simpa using congrArg String.toList hp
    exact absurd h (by decide)
  · obtain rfl : c = ':' := by simpa using congrArg String.toList hp
    exact absurd h (by decide)

theorem point_isRegular (cs : List Char) : (point cs).IsRegular := by
  have hp : (Lexeme.separator ".").IsProper := .inr (.inr (.inr rfl))
  unfold point
  split
  next => exact separator_isRegular hp (by simp [Lexeme.EndsBefore])
  next c cs =>
    split
    next hc => exact fraction_isRegular (.inr ⟨rfl, by simp [hc]⟩)
    next hc =>
      refine separator_isRegular hp ?_
      simpa [Lexeme.EndsBefore, Lexeme.GoesOn, Lexeme.separator] using hc

theorem colon_isRegular (cs : List Char) : (colon cs).IsRegular := by
  unfold colon
  split
  next cs =>
    refine separator_isRegular (.inr (.inr (.inl rfl))) ?_
    simp [Lexeme.EndsBefore, Lexeme.GoesOn, Lexeme.separator]
  next hc =>
    refine separator_isRegular (.inr (.inl rfl)) ?_
    intro c hh
    rintro (⟨hp, -⟩ | ⟨-, rfl⟩)
    · simp [Lexeme.separator] at hp
    · obtain ⟨rest, hr⟩ := List.head?_eq_some_iff.1 hh
      exact hc rest hr

theorem operator_isRegular {c : Char} (h : c ∈ operatorChars) {cs : List Char}
    (hs : c = '/' → ∀ d ∈ cs.head?, d ≠ '/' ∧ d ≠ '*') : (operator c cs).IsRegular := by
  have hp : Lexeme.IsProper ⟨.operator, .ofList [c]⟩ := .inl ⟨c, h, String.toList_ofList⟩
  have he : ∀ ds : List Char, (∀ d ∈ ds.head?, (c, d) ∉ operatorPairs) → ds.head? = cs.head? →
      Lexeme.EndsBefore ⟨.operator, .ofList [c]⟩ ds := by
    intro ds hds hh d hd
    rintro (⟨c', hc', hm⟩ | ⟨hc', hd'⟩)
    · obtain rfl : c = c' := by simpa using hc'
      exact hds d hd hm
    · obtain rfl : c = '/' := by simpa using congrArg String.toList hc'
      have hsd := hs rfl d (hh ▸ hd)
      exact hd'.elim hsd.1 hsd.2
  unfold operator
  split
  next => exact .ofChars (by simp) hp (he [] (by simp) rfl)
  next d ds =>
    split
    next hm =>
      refine .ofChars (by simp) (.inr ⟨c, d, hm, String.toList_ofList⟩) ?_
      intro e _
      rintro (⟨c', hc', -⟩ | ⟨hc', -⟩)
      · simp at hc'
      · simpa using congrArg String.toList hc'
    next hm => exact .ofChars (by simp) hp (he _ (by simpa using hm) rfl)

theorem slash_isRegular (cs : List Char) : (slash cs).IsRegular := by
  unfold slash
  split
  next cs =>
    refine .lineComment ?_ ?_
    · intro hm
      simpa using List.all_eq_true.1 (List.all_takeWhile (p := (· != '\n')) (l := cs)) _ hm
    · intro c hc
      simpa using head_dropWhile_eq_false (· != '\n') cs c hc
  next cs =>
    split
    next hn =>
      exact .fault ⟨cs, by simp, splitAfterClose_eq_none_iff.1 hn⟩
    next comment rest hs =>
      obtain ⟨body, rfl, hb⟩ := splitAfterClose_eq_some hs
      exact .blockComment hb
  next hl hb =>
    refine operator_isRegular (by decide) ?_
    intro _ d hd
    obtain ⟨rest, rfl⟩ := List.head?_eq_some_iff.1 hd
    exact ⟨fun h => hl rest (h ▸ rfl), fun h => hb rest (h ▸ rfl)⟩

end Cut

theorem isRegular_of_cut {cs : List Char} {k : Cut} (h : cut? cs = some k) : k.IsRegular := by
  obtain ⟨c, ds, rfl, hr⟩ := rule_of_cut h
  cases hr with
  | blank hb => exact .blank hb
  | word hw => exact Cut.word_isRegular hw ds
  | string => exact Cut.string_isRegular ds
  | separator hs => exact Cut.separatorChar_isRegular hs ds
  | colon => exact Cut.colon_isRegular ds
  | slash => exact Cut.slash_isRegular ds
  | number hd => exact Cut.number_isRegular hd ds
  | point => exact Cut.point_isRegular ds
  | operator ho hs => exact Cut.operator_isRegular ho fun hsl => absurd hsl hs
  | unknown hu => exact .unknown hu

theorem takeWhile_append_head {p : Char → Bool} {cs rest : List Char}
    (h : ∀ c ∈ cs, p c = true) (hr : ∀ c ∈ rest.head?, p c = false) :
    (cs ++ rest).takeWhile p = cs := by
  rw [List.takeWhile_append_of_pos h]
  cases rest with
  | nil => simp
  | cons c rest => simp [hr c rfl]

theorem dropWhile_append_head {p : Char → Bool} {cs rest : List Char}
    (h : ∀ c ∈ cs, p c = true) (hr : ∀ c ∈ rest.head?, p c = false) :
    (cs ++ rest).dropWhile p = rest := by
  rw [List.dropWhile_append_of_pos h]
  cases rest with
  | nil => rfl
  | cons c rest => simp [hr c rfl]

theorem forall_ne_of_not_mem {d : Char} {cs : List Char} (h : d ∉ cs) :
    ∀ c ∈ cs, (c != d) = true := by
  intro c hc
  simpa using fun hd : c = d => h (hd ▸ hc)

theorem cut_lineComment {body rest : List Char} (hb : '\n' ∉ body)
    (he : ∀ c ∈ rest.head?, c = '\n') :
    cut? ('/' :: '/' :: body ++ rest) = some ⟨.layout, '/' :: '/' :: body, rest⟩ := by
  have hp := forall_ne_of_not_mem hb
  have hr : ∀ c ∈ rest.head?, (c != '\n') = false := by simpa using he
  simp only [List.cons_append, cut_slash, Cut.slash, takeWhile_append_head hp hr,
    dropWhile_append_head hp hr]

theorem cut_blockComment {body : List Char} (hb : ¬ HasClose (body ++ ['*']))
    (rest : List Char) :
    cut? ('/' :: '*' :: body ++ ['*', '/'] ++ rest) =
      some ⟨.layout, '/' :: '*' :: body ++ ['*', '/'], rest⟩ := by
  have hs := splitAfterClose_append_close hb rest
  simp only [List.cons_append, cut_slash, Cut.slash, hs]

theorem isWord_of_mem_keywords : ∀ w ∈ keywords, IsWord w.toList := by decide

theorem ofWord_of_mem_keywords : ∀ w ∈ keywords, Token.Kind.ofWord w = .keyword := by decide

theorem ofWord_of_isIdentifier {s : String} (h : IsIdentifier s) :
    Token.Kind.ofWord s = .identifier := by
  obtain ⟨-, hk, hn, ht, hf⟩ := h
  simp [Token.Kind.ofWord, hk, hn, ht, hf]

theorem cut_ofWord {s : String} (h : IsWord s.toList) {rest : List Char}
    (he : ∀ c ∈ rest.head?, isWordPart c = false) :
    cut? (s.toList ++ rest) = some ⟨.token (.ofWord s) s, s.toList, rest⟩ := by
  obtain ⟨c, ds, hs⟩ : ∃ c ds, s.toList = c :: ds := by
    cases hs : s.toList with
    | nil => simp [hs, IsWord] at h
    | cons c ds => exact ⟨c, ds, rfl⟩
  have hp := h.isWordPart
  rw [hs] at h
  have ht := takeWhile_append_head hp he
  have hd := dropWhile_append_head hp he
  rw [hs, List.cons_append] at ht hd
  have hw : String.ofList (c :: ds) = s := by rw [← hs, String.ofList_toList]
  rw [hs, List.cons_append, cut_word h.1, Cut.word, ht, hd, hw]

theorem cut_string {s : String} (h : '"' ∉ s.toList) (rest : List Char) :
    cut? ((Lexeme.string s).spelling ++ rest) =
      some ⟨.token .stringLiteral s, (Lexeme.string s).spelling, rest⟩ := by
  have hp := forall_ne_of_not_mem h
  have hr : ∀ c ∈ ('"' :: rest).head?, (c != '"') = false := by simp
  have ht := takeWhile_append_head hp hr
  have hd := dropWhile_append_head hp hr
  simp [Lexeme.spelling, Lexeme.string, cut_quote, Cut.string, ht, hd]

theorem IsWhole.exists_eq_cons {cs : List Char} (h : IsWhole cs) :
    ∃ c ds, cs = c :: ds ∧ c.isDigit = true := by
  obtain ⟨hne, hd, -⟩ := h
  obtain ⟨c, ds, rfl⟩ := List.exists_cons_of_ne_nil hne
  exact ⟨c, ds, rfl, hd c (by simp)⟩

theorem IsWhole.ne_zero_cons {cs : List Char} (h : IsWhole cs) (d : Char) (ds : List Char) :
    cs ≠ '0' :: d :: ds := by
  rintro rfl
  simpa using h.2.2 rfl

theorem cut_whole {s : String} (h : IsWhole s.toList) {rest : List Char}
    (he : ∀ c ∈ rest.head?, c.isDigit = false ∧ c ≠ '.') :
    cut? (s.toList ++ rest) = some ⟨.token .integerLiteral s, s.toList, rest⟩ := by
  have ht := takeWhile_append_head h.2.1 fun c hc => (he c hc).1
  have hd := dropWhile_append_head h.2.1 fun c hc => (he c hc).1
  obtain ⟨c, ds, hs, hc⟩ := h.exists_eq_cons
  have hcut : cut? (s.toList ++ rest) = some (.number (s.toList ++ rest)) := by
    rw [hs, List.cons_append, cut_digit hc]
  rw [hcut, Cut.number, ht, hd]
  split
  next hz => exact absurd hz (h.ne_zero_cons _ _)
  next hp => exact absurd rfl (he '.' (by simp)).2
  next => rw [String.ofList_toList]

theorem fraction_append_head (whole : List Char) {fraction rest : List Char} (hf : IsDigits fraction)
    (he : ∀ c ∈ rest.head?, c.isDigit = false) :
    Cut.fraction whole (fraction ++ rest) =
      ⟨.token .decimalLiteral (.ofList (whole ++ '.' :: fraction)), whole ++ '.' :: fraction,
        rest⟩ := by
  rw [Cut.fraction, takeWhile_append_head hf he, dropWhile_append_head hf he]

theorem cut_decimal {cs : List Char} (h : IsDecimal cs) {rest : List Char}
    (he : ∀ c ∈ rest.head?, c.isDigit = false) :
    cut? (cs ++ rest) = some ⟨.token .decimalLiteral (.ofList cs), cs, rest⟩ := by
  obtain ⟨whole, fraction, rfl, hf, hw | ⟨rfl, hne⟩⟩ := h
  · have hp : ∀ c ∈ ('.' :: (fraction ++ rest)).head?, c.isDigit = false := by simp
    have ht := takeWhile_append_head hw.2.1 hp
    have hd := dropWhile_append_head hw.2.1 hp
    obtain ⟨c, ds, hs, hc⟩ := hw.exists_eq_cons
    have hcut : cut? (whole ++ '.' :: (fraction ++ rest)) =
        some (.number (whole ++ '.' :: (fraction ++ rest))) := by
      rw [hs, List.cons_append, cut_digit hc]
    rw [List.append_assoc, List.cons_append, hcut, Cut.number, ht, hd]
    split
    next => exact absurd rfl (hw.ne_zero_cons _ _)
    next hr =>
      obtain rfl := (List.cons.inj hr).2
      rw [fraction_append_head _ hf he]
    next hr => exact absurd rfl (hr _)
  · obtain ⟨d, ds, rfl⟩ := List.exists_cons_of_ne_nil hne
    have hd : d.isDigit = true := hf d (by simp)
    have hfr := fraction_append_head [] hf he
    simp only [List.nil_append, List.cons_append] at hfr ⊢
    rw [cut_point, Cut.point, if_pos hd, hfr]

theorem cut_separatorText {s : String} (h : (Lexeme.separator s).IsProper) {rest : List Char}
    (he : (Lexeme.separator s).EndsBefore rest) :
    cut? (s.toList ++ rest) = some ⟨.token .separator s, s.toList, rest⟩ := by
  obtain ⟨c, hc, hs⟩ | rfl | rfl | rfl := h
  · replace hs : s.toList = [c] := hs
    have hl : String.ofList [c] = s := by rw [← hs, String.ofList_toList]
    rw [hs, List.cons_append, List.nil_append, cut_separator hc, hl]
  · change cut? (':' :: rest) = _
    rw [cut_colon]
    unfold Cut.colon
    split
    next => exact absurd (.inr ⟨rfl, rfl⟩) (he ':' rfl)
    next => rfl
  · rfl
  · change cut? ('.' :: rest) = _
    rw [cut_point]
    cases rest with
    | nil => rfl
    | cons c rest =>
      have hc : ¬ c.isDigit = true := fun hc => he c rfl (.inl ⟨rfl, hc⟩)
      rw [Cut.point, if_neg hc]
      rfl

theorem operator_of_pair {c d : Char} (h : (c, d) ∈ operatorPairs) (rest : List Char) :
    Cut.operator c (d :: rest) = ⟨.token .operator (.ofList [c, d]), [c, d], rest⟩ := by
  rw [Cut.operator, if_pos h]

theorem operator_of_single {c : Char} {rest : List Char}
    (h : ∀ d ∈ rest.head?, (c, d) ∉ operatorPairs) :
    Cut.operator c rest = ⟨.token .operator (.ofList [c]), [c], rest⟩ := by
  cases rest with
  | nil => rfl
  | cons d rest => rw [Cut.operator, if_neg (h d rfl)]

theorem slash_eq_operator {rest : List Char} (h : ∀ d ∈ rest.head?, d ≠ '/' ∧ d ≠ '*') :
    Cut.slash rest = Cut.operator '/' rest := by
  unfold Cut.slash
  split
  next => exact absurd rfl (h _ rfl).1
  next => exact absurd rfl (h _ rfl).2
  next => rfl

theorem cut_operatorChar {c : Char} (h : c ∈ operatorChars) {rest : List Char}
    (hs : c = '/' → ∀ d ∈ rest.head?, d ≠ '/' ∧ d ≠ '*') :
    cut? (c :: rest) = some (.operator c rest) := by
  by_cases hc : c = '/'
  · subst hc
    rw [cut_slash, slash_eq_operator (hs rfl)]
  · exact cut_operator h hc rest

theorem cut_operatorText {s : String} (h : Lexeme.IsProper ⟨.operator, s⟩) {rest : List Char}
    (he : Lexeme.EndsBefore ⟨.operator, s⟩ rest) :
    cut? (s.toList ++ rest) = some ⟨.token .operator s, s.toList, rest⟩ := by
  obtain ⟨c, hc, hs⟩ | ⟨c, d, hcd, hs⟩ := h
  · replace hs : s.toList = [c] := hs
    have hl : String.ofList [c] = s := by rw [← hs, String.ofList_toList]
    have hp : ∀ d ∈ rest.head?, (c, d) ∉ operatorPairs :=
      fun d hd hm => he d hd (.inl ⟨c, hs, hm⟩)
    have hsl : c = '/' → ∀ d ∈ rest.head?, d ≠ '/' ∧ d ≠ '*' := by
      rintro rfl d hd
      have hg := he d hd
      exact ⟨fun h => hg (.inr ⟨hl.symm, .inl h⟩), fun h => hg (.inr ⟨hl.symm, .inr h⟩)⟩
    rw [hs, List.cons_append, List.nil_append, cut_operatorChar hc hsl, operator_of_single hp, hl]
  · replace hs : s.toList = [c, d] := hs
    have hl : String.ofList [c, d] = s := by rw [← hs, String.ofList_toList]
    have hm : ∀ p ∈ operatorPairs, p.1 ∈ operatorChars ∧ p.2 ≠ '/' ∧ p.2 ≠ '*' := by decide
    obtain ⟨hc, hd⟩ := hm (c, d) hcd
    rw [hs, List.cons_append, List.cons_append, List.nil_append,
      cut_operatorChar hc (by simpa using fun _ => hd), operator_of_pair hcd, hl]

theorem cut_lexeme {l : Lexeme} (hp : l.IsProper) {rest : List Char} (he : l.EndsBefore rest) :
    cut? (l.spelling ++ rest) = some ⟨.token l.kind l.text, l.spelling, rest⟩ := by
  obtain ⟨kind, s⟩ := l
  have hword : (∀ c ∈ rest.head?, ¬ isWordPart c = true) →
      ∀ c ∈ rest.head?, isWordPart c = false := by simp
  cases kind with
  | keyword =>
    have hc := cut_ofWord (isWord_of_mem_keywords s hp) (hword he)
    rwa [ofWord_of_mem_keywords s hp] at hc
  | identifier =>
    have hc := cut_ofWord hp.1 (hword he)
    rwa [ofWord_of_isIdentifier hp] at hc
  | nullLiteral =>
    obtain rfl : s = "null" := hp
    exact cut_ofWord (by decide) (hword he)
  | booleanLiteral =>
    obtain rfl | rfl : s = "true" ∨ s = "false" := hp
    · exact cut_ofWord (by decide) (hword he)
    · exact cut_ofWord (by decide) (hword he)
  | stringLiteral => exact cut_string hp rest
  | integerLiteral =>
    refine cut_whole hp fun c hc => ?_
    have hg := he c hc
    simpa [Lexeme.GoesOn] using hg
  | decimalLiteral =>
    have hd : ∀ c ∈ rest.head?, c.isDigit = false := by
      simpa [Lexeme.EndsBefore, Lexeme.GoesOn] using he
    have hc := cut_decimal hp hd
    rwa [String.ofList_toList] at hc
  | separator => exact cut_separatorText hp he
  | operator => exact cut_operatorText hp he
  | eof => exact hp.elim

theorem cut_of_begins {cause : LexError.Cause} {cs : List Char} (h : cause.Begins cs) :
    ∃ k, cut? cs = some k ∧ k.piece = .fault cause := by
  cases cause with
  | unterminatedString =>
    obtain ⟨ds, rfl, hq⟩ := h
    refine ⟨_, cut_quote ds, ?_⟩
    have hr : ∀ c ∈ ([] : List Char).head?, (c != '"') = false := by simp
    have hd := dropWhile_append_head (forall_ne_of_not_mem hq) hr
    rw [List.append_nil] at hd
    simp [Cut.string, hd]
  | unterminatedComment =>
    obtain ⟨ds, rfl, hc⟩ := h
    refine ⟨_, cut_slash _, ?_⟩
    simp [Cut.slash, splitAfterClose_eq_none_iff.2 hc]
  | leadingZero =>
    obtain ⟨d, ds, rfl, hd⟩ := h
    refine ⟨_, cut_digit (by decide) _, ?_⟩
    have ht : ('0' :: d :: ds).takeWhile Char.isDigit = '0' :: d :: ds.takeWhile Char.isDigit := by
      simp [hd]
    simp [Cut.number, ht]

end FlatScript
