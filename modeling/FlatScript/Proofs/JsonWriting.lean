import FlatScript.Proofs.JsonText
import FlatScript.Proofs.Numeral

namespace FlatScript.Json

/-! ### Strings and space -/

theorem hexValue_hexDigit : ∀ n < 16, hexValue? (hexDigit n) = some n := by decide

theorem spells_escape (c : Char) : Spells c (escape c) := by
  unfold escape
  split
  next h => rcases h with rfl | rfl <;> exact .short (by decide)
  iterate 5
    split
    next h => exact h ▸ .short (by decide)
  split
  next h =>
    have hq := hexValue_hexDigit (c.toNat / 16) (by omega)
    have hr := hexValue_hexDigit (c.toNat % 16) (by omega)
    have h0 : hexValue? '0' = some 0 := rfl
    refine .code rfl ?_
    simp [hexNumber?, hq, hr, h0, Nat.div_add_mod]
  next hq _ _ _ _ _ h =>
    rw [not_or] at hq
    exact .plain (Nat.le_of_not_lt h) hq.1 hq.2

theorem quotes_escape (cs : List Char) : Quotes cs (cs.flatMap escape ++ ['"']) := by
  induction cs with
  | nil => exact .nil
  | cons c cs ih =>
    rw [List.flatMap_cons, List.append_assoc]
    exact .cons (spells_escape c) ih

theorem hasText_quote (s : String) : (Part.string s).HasText (quote s).toList := by
  have h : (quote s).toList = '"' :: (s.toList.flatMap escape ++ ['"']) := by simp [quote]
  rw [h]
  exact .string (quotes_escape s.toList)

theorem newline_not_mem_escape (c : Char) : '\n' ∉ escape c := by
  have hd : ∀ n < 16, hexDigit n ≠ '\n' := by decide
  unfold escape
  split
  next h => rcases h with rfl | rfl <;> decide
  iterate 5
    split
    · decide
  split
  next h =>
    have hq := hd (c.toNat / 16) (by omega)
    have hr := hd (c.toNat % 16) (by omega)
    simp [hq.symm, hr.symm]
  next h =>
    rw [List.mem_singleton]
    rintro rfl
    exact h (by decide)

theorem newline_not_mem_quote (s : String) : '\n' ∉ (quote s).toList := by
  simp [quote, newline_not_mem_escape]

theorem Lays.spaces {gap text : List Char} {ps : List Part} (hg : ∀ c ∈ gap, c ∈ spaces)
    (h : Lays ps text) : Lays ps (gap ++ text) := by
  induction gap with
  | nil => exact h
  | cons c gap ih =>
    rw [List.forall_mem_cons] at hg
    exact .space hg.1 (ih hg.2)

theorem Lays.mark {c : Char} {text : List Char} {ps : List Part} (hc : c ∈ marks)
    (h : Lays ps text) : Lays (.mark c :: ps) (c :: text) :=
  .part (.mark hc) nofun h

theorem ends_cons {c : Char} (hc : c ∈ spaces ++ marks) (text : List Char) : Ends (c :: text) := by
  have h : ∀ c ∈ spaces ++ marks, isNumberPart c = false := by
    simp [spaces, marks, isNumberPart]
  rintro _ ⟨⟩
  exact h c hc

theorem ends_append {gap text : List Char} (hg : ∀ c ∈ gap, c ∈ spaces) (h : Ends text) :
    Ends (gap ++ text) := by
  cases gap with
  | nil => exact h
  | cons c gap => exact ends_cons (List.mem_append_left _ (hg c List.mem_cons_self)) _

/-- The text is that of the parts wherever it stands. -/
def Stands (ps : List Part) (own : List Char) : Prop :=
  ∀ {qs : List Part} {text : List Char}, Ends text → Lays qs text → Lays (ps ++ qs) (own ++ text)

theorem stands_part {p : Part} {own : List Char} (h : p.HasText own) : Stands [p] own :=
  fun he hl => .part h (fun _ _ => he) hl

/-! ### Brackets -/

/-- What stands between two brackets, with a gap in front of each item and one behind the last. -/
def bracketed (opening closing : Char) (gap gap' : List Char) : List String → List Char
  | [] => [opening, closing]
  | s :: ss =>
    opening ::
      (gap ++ s.toList ++ ss.flatMap (fun s => ',' :: gap ++ s.toList) ++ gap' ++ [closing])

theorem intercalate_cons {α : Type} (separator l : List α) (ls : List (List α)) :
    separator.intercalate (l :: ls) = l ++ ls.flatMap (separator ++ ·) := by
  induction ls generalizing l with
  | nil => simp
  | cons l' ls ih => simp [List.intercalate_cons_cons, ih]

section

variable {α : Type} {p : α → List Part} {f : α → String} {gap gap' : List Char}
  {opening closing : Char} (hg : ∀ c ∈ gap, c ∈ spaces) (hg' : ∀ c ∈ gap', c ∈ spaces)
  (hc : closing ∈ marks)

include hg' hc

theorem ends_later (as : List α) (text : List Char) :
    Ends (as.flatMap (fun a => ',' :: gap ++ (f a).toList) ++ (gap' ++ closing :: text)) := by
  cases as with
  | nil =>
    have h : Ends (closing :: text) := ends_cons (List.mem_append_right _ hc) text
    simpa using ends_append hg' h
  | cons => exact ends_cons (by decide) _

include hg

theorem lays_later {qs : List Part} {text : List Char} (hl : Lays qs text) {as : List α}
    (h : ∀ a ∈ as, Stands (p a) (f a).toList) :
    Lays (as.flatMap (fun a => .mark ',' :: p a) ++ .mark closing :: qs)
      (as.flatMap (fun a => ',' :: gap ++ (f a).toList) ++ (gap' ++ closing :: text)) := by
  induction as with
  | nil => simpa using (hl.mark hc).spaces hg'
  | cons a as ih =>
    rw [List.forall_mem_cons] at h
    have ha := ((h.1 (ends_later hg' hc as text) (ih h.2)).spaces hg).mark (c := ',') (by decide)
    simpa using ha

theorem stands_bracketed (ho : opening ∈ marks) {as : List α}
    (h : ∀ a ∈ as, Stands (p a) (f a).toList) :
    Stands (.mark opening :: ([Part.mark ','].intercalate (as.map p) ++ [.mark closing]))
      (bracketed opening closing gap gap' (as.map f)) := by
  intro qs text he hl
  cases as with
  | nil => exact (hl.mark hc).mark ho
  | cons a as =>
    rw [List.forall_mem_cons] at h
    have hl := lays_later hg hg' hc hl h.2
    have ha := ((h.1 (ends_later hg' hc as text) hl).spaces hg).mark ho
    simpa [intercalate_cons, bracketed, List.flatMap_map] using ha

end

theorem itemParts_eq (js : List Json) :
    itemParts [] js = [Part.mark ','].intercalate (js.map parts) ++ [.mark ']'] := by
  have h : ∀ js, itemParts [.mark ','] js =
      js.flatMap (fun j => .mark ',' :: j.parts) ++ [.mark ']'] := by
    intro js
    induction js with
    | nil => rfl
    | cons j js ih => simp [itemParts, ih]
  cases js with
  | nil => rfl
  | cons j js => simp [itemParts, h, intercalate_cons, List.flatMap_map]

theorem memberParts_eq (ms : List (String × Json)) :
    memberParts [] ms = [Part.mark ','].intercalate
      (ms.map fun m => .string m.1 :: .mark ':' :: m.2.parts) ++ [.mark '\x7d'] := by
  have h : ∀ ms, memberParts [.mark ','] ms =
      ms.flatMap (fun m => .mark ',' :: .string m.1 :: .mark ':' :: m.2.parts) ++
        [.mark '\x7d'] := by
    intro ms
    induction ms with
    | nil => rfl
    | cons m ms ih => simp [memberParts, ih]
  cases ms with
  | nil => rfl
  | cons m ms => simp [memberParts, h, intercalate_cons, List.flatMap_map]

/-! ### Numbers -/

/-- The numbers in a document are written as numbers. -/
def HasNumerals (j : Json) : Prop :=
  ∀ literal, .number literal ∈ j.parts → IsNumeral literal.toList

theorem isNumeral_toDigits (n : Nat) : IsNumeral (Nat.toDigits 10 n) := by
  have hd := isDigits_toDigits n
  cases h : Nat.toDigits 10 n with
  | nil => exact absurd h Nat.toDigits_ne_nil
  | cons c cs =>
    rw [h] at hd
    refine ⟨.inl (hd c List.mem_cons_self), fun d hm => ?_⟩
    simp [isNumberPart, hd d (List.mem_cons_of_mem _ hm)]

theorem isNumeral_toString (n : Int) : IsNumeral (toString n).toList := by
  cases n with
  | ofNat m =>
    change IsNumeral m.repr.toList
    rw [Nat.toList_repr]
    exact isNumeral_toDigits m
  | negSucc m =>
    change IsNumeral ("-" ++ (m + 1).repr).toList
    rw [String.toList_append, Nat.toList_repr]
    exact ⟨.inr rfl, (isNumeral_toDigits _).isNumberPart⟩

@[simp]
theorem hasNumerals_null : null.HasNumerals := by
  simp [HasNumerals, parts]

@[simp]
theorem hasNumerals_bool (b : Bool) : (bool b).HasNumerals := by
  simp [HasNumerals, parts]

@[simp]
theorem hasNumerals_string (s : String) : (string s).HasNumerals := by
  simp [HasNumerals, parts]

@[simp]
theorem hasNumerals_number_iff {literal : String} :
    (number literal).HasNumerals ↔ IsNumeral literal.toList := by
  simp [HasNumerals, parts]

@[simp]
theorem hasNumerals_nat (n : Nat) : (nat n).HasNumerals := by
  simpa [nat] using isNumeral_toDigits n

theorem nat_injective : Function.Injective nat := by
  intro m n h
  have hr : m.repr = n.repr := number.inj h
  have hd : Nat.toDigits 10 m = Nat.toDigits 10 n := by
    rw [← Nat.toList_repr, ← Nat.toList_repr, hr]
  rw [← ofDigits_toDigits m, hd, ofDigits_toDigits]

theorem mem_intercalate {α : Type} {separator l : List α} {ls : List (List α)} {a : α} (hl : l ∈ ls)
    (ha : a ∈ l) : a ∈ separator.intercalate ls := by
  induction ls with
  | nil => cases hl
  | cons l' ls =>
    rw [intercalate_cons, List.mem_append, List.mem_flatMap]
    rcases List.mem_cons.1 hl with rfl | hl
    · exact .inl ha
    · exact .inr ⟨l, hl, List.mem_append_right _ ha⟩

theorem mem_of_mem_intercalate {α : Type} {separator : List α} {ls : List (List α)} {a : α}
    (h : a ∈ separator.intercalate ls) : a ∈ separator ∨ ∃ l ∈ ls, a ∈ l := by
  cases ls with
  | nil => simp at h
  | cons l ls =>
    rw [intercalate_cons, List.mem_append, List.mem_flatMap] at h
    rcases h with h | ⟨l', hl', h⟩
    · exact .inr ⟨l, List.mem_cons_self, h⟩
    · exact (List.mem_append.1 h).imp_right fun h => ⟨l', List.mem_cons_of_mem _ hl', h⟩

@[simp]
theorem hasNumerals_array_iff {js : List Json} :
    (array js).HasNumerals ↔ ∀ j ∈ js, j.HasNumerals := by
  simp only [HasNumerals, parts, itemParts_eq]
  constructor
  · intro h j hj literal hl
    have hi : .number literal ∈ [Part.mark ','].intercalate (js.map parts) :=
      mem_intercalate (List.mem_map_of_mem hj) hl
    exact h literal (List.mem_cons_of_mem _ (List.mem_append_left _ hi))
  · intro h literal hl
    have hi : .number literal ∈ [Part.mark ','].intercalate (js.map parts) := by simpa using hl
    obtain hs | ⟨ps, hps, hp⟩ := mem_of_mem_intercalate hi
    · simp at hs
    · obtain ⟨j, hj, rfl⟩ := List.mem_map.1 hps
      exact h j hj literal hp

@[simp]
theorem hasNumerals_object_iff {ms : List (String × Json)} :
    (object ms).HasNumerals ↔ ∀ m ∈ ms, m.2.HasNumerals := by
  simp only [HasNumerals, parts, memberParts_eq]
  constructor
  · intro h m hm literal hl
    have hi : .number literal ∈ [Part.mark ','].intercalate
        (ms.map fun m => .string m.1 :: .mark ':' :: m.2.parts) :=
      mem_intercalate (List.mem_map.2 ⟨m, hm, rfl⟩)
        (List.mem_cons_of_mem _ (List.mem_cons_of_mem _ hl))
    exact h literal (List.mem_cons_of_mem _ (List.mem_append_left _ hi))
  · intro h literal hl
    have hi : .number literal ∈ [Part.mark ','].intercalate
        (ms.map fun m => .string m.1 :: .mark ':' :: m.2.parts) := by simpa using hl
    obtain hs | ⟨ps, hps, hp⟩ := mem_of_mem_intercalate hi
    · simp at hs
    · obtain ⟨m, hm, rfl⟩ := List.mem_map.1 hps
      exact h m hm literal (by simpa using hp)

/-! ### Documents -/

/-- Ways to write documents, which differ in the gaps between the parts. -/
structure IsWriting (write : Nat → Json → String) : Prop where
  scalar : ∀ d j, (∀ js, j ≠ .array js) → (∀ ms, j ≠ .object ms) → write d j = j.compact
  array : ∀ d, ∃ gap gap', (∀ c ∈ gap, c ∈ spaces) ∧ (∀ c ∈ gap', c ∈ spaces) ∧ ∀ js,
    (write d (.array js)).toList = bracketed '[' ']' gap gap' (js.map (write (d + 1)))
  object : ∀ d, ∃ gap between gap', (∀ c ∈ gap, c ∈ spaces) ∧ (∀ c ∈ between, c ∈ spaces) ∧
    (∀ c ∈ gap', c ∈ spaces) ∧ ∀ ms, (write d (.object ms)).toList =
      bracketed '\x7b' '\x7d' gap gap'
        (ms.map fun m => quote m.1 ++ ":" ++ String.ofList between ++ write (d + 1) m.2)

section

variable {write : Nat → Json → String}

mutual

theorem IsWriting.stands (hw : IsWriting write) : ∀ (j : Json) (d : Nat), j.HasNumerals →
    Stands j.parts (write d j).toList
  | .null, d, _ => by
    rw [hw.scalar d .null nofun nofun]
    exact stands_part .null
  | .bool b, d, _ => by
    rw [hw.scalar d (.bool b) nofun nofun]
    exact stands_part (.bool b)
  | .number literal, d, h => by
    rw [hw.scalar d (.number literal) nofun nofun]
    exact stands_part (.number (h literal List.mem_cons_self))
  | .string s, d, _ => by
    rw [hw.scalar d (.string s) nofun nofun]
    exact stands_part (hasText_quote s)
  | .array js, d, h => by
    obtain ⟨gap, gap', hg, hg', ha⟩ := hw.array d
    rw [parts, itemParts_eq, ha]
    exact stands_bracketed hg hg' (by decide) (by decide)
      (hw.stands_of_mem js (d + 1) (hasNumerals_array_iff.1 h))
  | .object ms, d, h => by
    obtain ⟨gap, between, gap', hg, hb, hg', ho⟩ := hw.object d
    rw [parts, memberParts_eq, ho]
    exact stands_bracketed hg hg' (by decide) (by decide)
      (hw.stands_of_mem_object hb ms (d + 1) (hasNumerals_object_iff.1 h))

theorem IsWriting.stands_of_mem (hw : IsWriting write) : ∀ (js : List Json) (d : Nat),
    (∀ j ∈ js, j.HasNumerals) → ∀ j ∈ js, Stands j.parts (write d j).toList
  | [], _, _ => nofun
  | j :: js, d, h => by
    rw [List.forall_mem_cons] at h ⊢
    exact ⟨hw.stands j d h.1, hw.stands_of_mem js d h.2⟩

theorem IsWriting.stands_of_mem_object (hw : IsWriting write) {between : List Char}
    (hb : ∀ c ∈ between, c ∈ spaces) :
    ∀ (ms : List (String × Json)) (d : Nat), (∀ m ∈ ms, m.2.HasNumerals) → ∀ m ∈ ms,
      Stands (.string m.1 :: .mark ':' :: m.2.parts)
        (quote m.1 ++ ":" ++ String.ofList between ++ write d m.2).toList
  | [], _, _ => nofun
  | (name, j) :: ms, d, h => by
    rw [List.forall_mem_cons] at h ⊢
    refine ⟨fun he hl => ?_, hw.stands_of_mem_object hb ms d h.2⟩
    have hj := ((hw.stands j d h.1 he hl).spaces hb).mark (c := ':') (by decide)
    have hn := hj.part (hasText_quote name) nofun
    simpa using hn

end

end

theorem compactItems_eq_map (js : List Json) : compactItems js = js.map compact := by
  induction js with
  | nil => rfl
  | cons j js ih => rw [compactItems, ih, List.map_cons]

theorem compactMembers_eq_map (ms : List (String × Json)) :
    compactMembers ms = ms.map fun m => quote m.1 ++ ":" ++ m.2.compact := by
  induction ms with
  | nil => rfl
  | cons m ms ih => rw [compactMembers, ih, List.map_cons]

theorem isWriting_compact : IsWriting fun _ => compact where
  scalar _ _ _ _ := rfl
  array _ := by
    refine ⟨[], [], nofun, nofun, fun js => ?_⟩
    rw [compact, compactItems_eq_map]
    cases js.map compact with
    | nil => simp [bracketed]
    | cons => simp [bracketed, String.toList_intercalate, intercalate_cons, List.flatMap_map]
  object _ := by
    refine ⟨[], [], [], nofun, nofun, nofun, fun ms => ?_⟩
    simp only [compact, compactMembers_eq_map, String.ofList_nil, String.append_empty]
    cases ms.map fun m => quote m.1 ++ ":" ++ m.2.compact with
    | nil => simp [bracketed]
    | cons => simp [bracketed, String.toList_intercalate, intercalate_cons, List.flatMap_map]

theorem prettyItems_eq_map (d : Nat) (js : List Json) : prettyItems d js = js.map (prettyAt d) := by
  induction js with
  | nil => rfl
  | cons j js ih => rw [prettyItems, ih, List.map_cons]

theorem prettyMembers_eq_map (d : Nat) (ms : List (String × Json)) :
    prettyMembers d ms = ms.map fun m => quote m.1 ++ ": " ++ prettyAt d m.2 := by
  induction ms with
  | nil => rfl
  | cons m ms ih => rw [prettyMembers, ih, List.map_cons]

theorem mem_spaces_of_mem_newline {d : Nat} : ∀ c ∈ (newline d).toList, c ∈ spaces := by
  intro c hc
  simp [newline] at hc
  rcases hc with rfl | ⟨-, rfl⟩ <;> decide

theorem isWriting_pretty : IsWriting prettyAt where
  scalar d j ha ho := by
    cases j with
    | array js => exact absurd rfl (ha js)
    | object ms => exact absurd rfl (ho ms)
    | _ => rfl
  array d := by
    refine ⟨(newline (d + 1)).toList, (newline d).toList, mem_spaces_of_mem_newline,
      mem_spaces_of_mem_newline, fun js => ?_⟩
    rw [prettyAt, prettyItems_eq_map]
    cases js.map (prettyAt (d + 1)) with
    | nil => simp [bracketed, enclose]
    | cons =>
      simp [bracketed, enclose, String.toList_intercalate, intercalate_cons, List.flatMap_map]
  object d := by
    refine ⟨(newline (d + 1)).toList, [' '], (newline d).toList, mem_spaces_of_mem_newline,
      by simp [spaces], mem_spaces_of_mem_newline, fun ms => ?_⟩
    have hm : ∀ m : String × Json, quote m.1 ++ ":" ++ String.ofList [' '] ++ prettyAt (d + 1) m.2 =
        quote m.1 ++ ": " ++ prettyAt (d + 1) m.2 := fun m => by
      simp only [String.append_assoc]
      rfl
    simp only [prettyAt, prettyMembers_eq_map, hm]
    cases ms.map fun m => quote m.1 ++ ": " ++ prettyAt (d + 1) m.2 with
    | nil => simp [bracketed, enclose]
    | cons =>
      simp [bracketed, enclose, String.toList_intercalate, intercalate_cons, List.flatMap_map]

theorem isText_compact {j : Json} (h : j.HasNumerals) : j.IsText j.compact := by
  have hj : Lays (j.parts ++ []) (j.compact.toList ++ []) :=
    isWriting_compact.stands j 0 h nofun .nil
  rwa [List.append_nil, List.append_nil] at hj

theorem isText_pretty_append {j : Json} (h : j.HasNumerals) {gap : String}
    (hg : ∀ c ∈ gap.toList, c ∈ spaces) : j.IsText (j.pretty ++ gap) := by
  have he : Ends (gap.toList ++ []) := ends_append hg nofun
  have hj := isWriting_pretty.stands j 0 h he (Lays.nil.spaces hg)
  rw [List.append_nil, List.append_nil, ← pretty, ← String.toList_append] at hj
  exact hj

end FlatScript.Json
