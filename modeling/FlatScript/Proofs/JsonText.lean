import Mathlib.Data.List.Basic
import FlatScript.Json

namespace FlatScript.Json

/-! ### Parts of documents -/

/-- What the text of a document consists of, apart from the space between. -/
inductive Part
  | null
  | bool (b : Bool)
  | number (literal : String)
  | string (s : String)
  | mark (c : Char)

mutual

def parts : Json → List Part
  | .null => [.null]
  | .bool b => [.bool b]
  | .number literal => [.number literal]
  | .string s => [.string s]
  | .array js => .mark '[' :: itemParts [] js
  | .object ms => .mark '\x7b' :: memberParts [] ms

/-- The parts of the items of an array and of its end; `separator` stands in front of the first. -/
def itemParts (separator : List Part) : List Json → List Part
  | [] => [.mark ']']
  | j :: js => separator ++ (j.parts ++ itemParts [.mark ','] js)

def memberParts (separator : List Part) : List (String × Json) → List Part
  | [] => [.mark '\x7d']
  | (name, j) :: ms =>
    separator ++ (.string name :: .mark ':' :: (j.parts ++ memberParts [.mark ','] ms))

end

def lead : Json → Part
  | .null => .null
  | .bool b => .bool b
  | .number literal => .number literal
  | .string s => .string s
  | .array _ => .mark '['
  | .object _ => .mark '\x7b'

theorem exists_parts_eq_cons (j : Json) : ∃ ps, j.parts = j.lead :: ps := by
  cases j <;> exact ⟨_, by rw [parts, lead]⟩

theorem lead_eq_of_append_eq {j : Json} {p : Part} {r ps : List Part}
    (h : j.parts ++ r = p :: ps) : j.lead = p := by
  obtain ⟨qs, hj⟩ := j.exists_parts_eq_cons
  rw [hj] at h
  exact (List.cons.inj h).1

theorem append_ne_bracket (j : Json) (r ps : List Part) : j.parts ++ r ≠ .mark ']' :: ps := by
  intro h
  have hl := lead_eq_of_append_eq h
  cases j <;> simp [lead] at hl

mutual

theorem eq_of_parts_append_eq : ∀ {j j' : Json} {r r' : List Part},
    j.parts ++ r = j'.parts ++ r' → j = j' ∧ r = r'
  | .null, j', _, _, h | .bool _, j', _, _, h | .number _, j', _, _, h
  | .string _, j', _, _, h => by
    cases j' <;> simp_all [parts]
  | .array js, j', _, _, h => by
    cases j' with
    | array js' =>
      simp only [parts, List.cons_append, List.cons.injEq, true_and] at h
      obtain ⟨rfl, rfl⟩ := eq_of_itemParts_append_eq append_ne_bracket h
      exact ⟨rfl, rfl⟩
    | _ => simp [parts] at h
  | .object ms, j', _, _, h => by
    cases j' with
    | object ms' =>
      simp only [parts, List.cons_append, List.cons.injEq, true_and] at h
      obtain ⟨rfl, rfl⟩ := eq_of_memberParts_append_eq (by simp) h
      exact ⟨rfl, rfl⟩
    | _ => simp [parts] at h

theorem eq_of_itemParts_append_eq {separator : List Part}
    (hs : ∀ (j : Json) r ps, separator ++ (j.parts ++ r) ≠ .mark ']' :: ps) :
    ∀ {js js' : List Json} {r r' : List Part},
    itemParts separator js ++ r = itemParts separator js' ++ r' → js = js' ∧ r = r'
  | [], [], _, _, h => ⟨rfl, List.append_cancel_left h⟩
  | [], j :: js, _, _, h => by
    simp only [itemParts, List.append_assoc] at h
    exact absurd h.symm (hs j _ _)
  | j :: js, [], _, _, h => by
    simp only [itemParts, List.append_assoc] at h
    exact absurd h (hs j _ _)
  | j :: js, j' :: js', _, _, h => by
    simp only [itemParts, List.append_assoc, List.append_cancel_left_eq] at h
    obtain ⟨rfl, hr⟩ := eq_of_parts_append_eq h
    obtain ⟨rfl, rfl⟩ := eq_of_itemParts_append_eq (by simp) hr
    exact ⟨rfl, rfl⟩

theorem eq_of_memberParts_append_eq {separator : List Part}
    (hs : ∀ name r ps, separator ++ (.string name :: r) ≠ .mark '\x7d' :: ps) :
    ∀ {ms ms' : List (String × Json)} {r r' : List Part},
    memberParts separator ms ++ r = memberParts separator ms' ++ r' → ms = ms' ∧ r = r'
  | [], [], _, _, h => ⟨rfl, List.append_cancel_left h⟩
  | [], (name, j) :: ms, _, _, h => by
    simp only [memberParts, List.append_assoc] at h
    exact absurd h.symm (hs name _ _)
  | (name, j) :: ms, [], _, _, h => by
    simp only [memberParts, List.append_assoc] at h
    exact absurd h (hs name _ _)
  | (name, j) :: ms, (name', j') :: ms', _, _, h => by
    simp only [memberParts, List.append_assoc, List.cons_append, List.append_cancel_left_eq,
      List.cons.injEq, Part.string.injEq, true_and] at h
    obtain ⟨rfl, hj⟩ := h
    obtain ⟨rfl, hr⟩ := eq_of_parts_append_eq hj
    obtain ⟨rfl, rfl⟩ := eq_of_memberParts_append_eq (by simp) hr
    exact ⟨rfl, rfl⟩

end

theorem parts_injective : Function.Injective parts := fun _ _ h =>
  (eq_of_parts_append_eq (congrArg (· ++ []) h)).1

/-! ### Texts -/

def spaces : List Char := [' ', '\n', '\r', '\t']

def marks : List Char := ['[', ']', '\x7b', '\x7d', ',', ':']

def isNumberPart (c : Char) : Bool := c.isDigit || c ∈ ['-', '+', '.', 'e', 'E']

/-- A digit or a sign, and what numbers are written with. -/
def IsNumeral : List Char → Prop
  | [] => False
  | c :: cs => (c.isDigit = true ∨ c = '-') ∧ ∀ d ∈ cs, isNumberPart d = true

def hexValue? (c : Char) : Option Nat :=
  if c.isDigit then some (c.toNat - 48)
  else if 'a' ≤ c ∧ c ≤ 'f' then some (c.toNat - 87)
  else if 'A' ≤ c ∧ c ≤ 'F' then some (c.toNat - 55)
  else none

def hexNumber? (ds : List Char) : Option Nat :=
  ds.foldlM (fun n d => (hexValue? d).map (16 * n + ·)) 0

def shortEscapes : List (Char × Char) :=
  [('"', '"'), ('\\', '\\'), ('/', '/'), ('\x08', 'b'), ('\x0c', 'f'), ('\n', 'n'), ('\r', 'r'),
    ('\t', 't')]

/-- What stands for a character inside quotes. -/
inductive Spells (c : Char) : List Char → Prop
  | plain (h : 32 ≤ c.toNat) (hq : c ≠ '"') (hb : c ≠ '\\') : Spells c [c]
  | short {e : Char} (h : (c, e) ∈ shortEscapes) : Spells c ['\\', e]
  | code {ds : List Char} (hl : ds.length = 4) (h : hexNumber? ds = some c.toNat) :
      Spells c ('\\' :: 'u' :: ds)

/-- The text of a string behind the first quote. -/
inductive Quotes : List Char → List Char → Prop
  | nil : Quotes [] ['"']
  | cons {c : Char} {cs spelling text : List Char} (h : Spells c spelling) (hs : Quotes cs text) :
      Quotes (c :: cs) (spelling ++ text)

inductive Part.HasText : Part → List Char → Prop
  | null : Part.HasText .null "null".toList
  | bool (b : Bool) : Part.HasText (.bool b) (toString b).toList
  | number {literal : String} (h : IsNumeral literal.toList) :
      Part.HasText (.number literal) literal.toList
  | string {s : String} {text : List Char} (h : Quotes s.toList text) :
      Part.HasText (.string s) ('"' :: text)
  | mark {c : Char} (h : c ∈ marks) : Part.HasText (.mark c) [c]

def Ends (text : List Char) : Prop := ∀ c ∈ text.head?, isNumberPart c = false

/-- The text consists of the parts, with space anywhere between them. -/
inductive Lays : List Part → List Char → Prop
  | nil : Lays [] []
  | space {ps : List Part} {c : Char} {text : List Char} (hc : c ∈ spaces)
      (h : Lays ps text) : Lays ps (c :: text)
  | part {p : Part} {ps : List Part} {own text : List Char} (hp : p.HasText own)
      (he : ∀ literal, p = .number literal → Ends text) (h : Lays ps text) :
      Lays (p :: ps) (own ++ text)

/-- A text that is a document in the notation of JSON. -/
def IsText (j : Json) (text : String) : Prop := Lays j.parts text.toList

/-! ### Reading a text -/

theorem eq_of_shortEscapes : ∀ x ∈ shortEscapes, ∀ y ∈ shortEscapes, x.2 = y.2 → x.1 = y.1 := by
  decide

theorem ne_of_shortEscapes : ∀ x ∈ shortEscapes, x.2 ≠ 'u' := by decide

theorem Spells.exists_eq_cons {c : Char} {spelling : List Char} (h : Spells c spelling) :
    ∃ d ds, spelling = d :: ds ∧ d ≠ '"' := by
  cases h with
  | plain _ hq => exact ⟨c, [], rfl, hq⟩
  | short | code => exact ⟨'\\', _, rfl, by decide⟩

theorem Spells.cancel {c c' : Char} {s s' r r' : List Char} (h : Spells c s) (h' : Spells c' s')
    (he : s ++ r = s' ++ r') : c = c' ∧ r = r' := by
  cases h with
  | plain _ _ hb =>
    cases h' with
    | plain => exact List.cons.inj he
    | short | code => exact absurd (List.cons.inj he).1 hb
  | short h =>
    cases h' with
    | plain _ _ hb => exact absurd (List.cons.inj he).1.symm hb
    | short h' =>
      obtain ⟨rfl, hr⟩ := List.cons.inj (List.cons.inj he).2
      exact ⟨eq_of_shortEscapes _ h _ h' rfl, hr⟩
    | code => exact absurd (List.cons.inj (List.cons.inj he).2).1 (ne_of_shortEscapes _ h)
  | code hl hn =>
    cases h' with
    | plain _ _ hb => exact absurd (List.cons.inj he).1.symm hb
    | short h' => exact absurd (List.cons.inj (List.cons.inj he).2).1.symm (ne_of_shortEscapes _ h')
    | code hl' hn' =>
      have hds := (List.cons.inj (List.cons.inj he).2).2
      obtain ⟨rfl, hr⟩ := List.append_inj hds (hl.trans hl'.symm)
      exact ⟨Char.toNat_inj.1 (Option.some.inj (hn.symm.trans hn')), hr⟩

theorem Quotes.cancel {s s' t t' r r' : List Char} (h : Quotes s t) (h' : Quotes s' t')
    (he : t ++ r = t' ++ r') : s = s' ∧ r = r' := by
  induction h generalizing s' t' with
  | nil =>
    cases h' with
    | nil => exact ⟨rfl, (List.cons.inj he).2⟩
    | cons hc =>
      obtain ⟨d, ds, rfl, hd⟩ := hc.exists_eq_cons
      exact absurd (List.cons.inj he).1.symm hd
  | cons hc _ ih =>
    cases h' with
    | nil =>
      obtain ⟨d, ds, rfl, hd⟩ := hc.exists_eq_cons
      exact absurd (List.cons.inj he).1 hd
    | cons hc' hs' =>
      rw [List.append_assoc, List.append_assoc] at he
      obtain ⟨rfl, hr⟩ := hc.cancel hc' he
      obtain ⟨rfl, rfl⟩ := ih hs' hr
      exact ⟨rfl, rfl⟩

inductive Form
  | space | null | bool | number | string | mark

def Part.form : Part → Form
  | .null => .null
  | .bool _ => .bool
  | .number _ => .number
  | .string _ => .string
  | .mark _ => .mark

def formOf (c : Char) : Form :=
  if c ∈ spaces then .space
  else if c ∈ marks then .mark
  else if c.isDigit ∨ c = '-' then .number
  else if c = '"' then .string
  else if c = 'n' then .null
  else .bool

theorem formOf_space {c : Char} (h : c ∈ spaces) : formOf c = .space := if_pos h

theorem formOf_mark : ∀ c ∈ marks, formOf c = .mark := by simp [marks, formOf, spaces]

theorem formOf_numeral {c : Char} {cs : List Char} (h : IsNumeral (c :: cs)) :
    formOf c = .number := by
  have hne : ∀ d ∈ spaces ++ marks, ¬ (d.isDigit = true ∨ d = '-') := by simp [spaces, marks]
  have hs : c ∉ spaces := fun hc => hne c (List.mem_append_left _ hc) h.1
  have hm : c ∉ marks := fun hc => hne c (List.mem_append_right _ hc) h.1
  rw [formOf, if_neg hs, if_neg hm, if_pos h.1]

theorem Part.HasText.exists_eq_cons {p : Part} {own : List Char} (h : p.HasText own) :
    ∃ c cs, own = c :: cs ∧ formOf c = p.form := by
  cases h with
  | null => exact ⟨'n', _, rfl, rfl⟩
  | bool b =>
    cases b with
    | true => exact ⟨'t', _, rfl, rfl⟩
    | false => exact ⟨'f', _, rfl, rfl⟩
  | @number literal h =>
    cases hl : literal.toList with
    | nil => exact (hl ▸ h : IsNumeral []).elim
    | cons c cs => exact ⟨c, cs, rfl, formOf_numeral (hl ▸ h)⟩
  | string => exact ⟨'"', _, rfl, rfl⟩
  | @mark c h => exact ⟨c, [], rfl, formOf_mark c h⟩

theorem IsNumeral.isNumberPart {cs : List Char} (h : IsNumeral cs) :
    ∀ c ∈ cs, isNumberPart c = true := by
  cases cs with
  | nil => exact nofun
  | cons c cs =>
    refine List.forall_mem_cons.2 ⟨?_, h.2⟩
    rcases h.1 with hc | rfl
    · simp [Json.isNumberPart, hc]
    · rfl

theorem cancel_of_ends {cs cs' r r' : List Char} (h : ∀ c ∈ cs, isNumberPart c = true)
    (h' : ∀ c ∈ cs', isNumberPart c = true) (hr : Ends r) (hr' : Ends r')
    (he : cs ++ r = cs' ++ r') : cs = cs' ∧ r = r' := by
  have hw : ∀ {ds t}, (∀ c ∈ ds, isNumberPart c = true) → Ends t →
      (ds ++ t).takeWhile isNumberPart = ds := by
    intro ds t hds ht
    rw [List.takeWhile_append_of_pos hds]
    cases t with
    | nil => simp
    | cons c t => simp [ht c rfl]
  have hc : cs = cs' := by rw [← hw h hr, he, hw h' hr']
  subst hc
  exact ⟨rfl, List.append_cancel_left he⟩

theorem Part.HasText.cancel {p p' : Part} {own own' text text' : List Char} (h : p.HasText own)
    (h' : p'.HasText own') (ht : ∀ literal, p = .number literal → Ends text)
    (ht' : ∀ literal, p' = .number literal → Ends text') (he : own ++ text = own' ++ text') :
    p = p' ∧ text = text' := by
  have hform : p.form = p'.form := by
    obtain ⟨c, cs, hc, hf⟩ := h.exists_eq_cons
    obtain ⟨c', cs', hc', hf'⟩ := h'.exists_eq_cons
    rw [hc, hc'] at he
    rw [← hf, ← hf', (List.cons.inj he).1]
  cases h with
  | null =>
    cases h' with
    | null => exact ⟨rfl, List.append_cancel_left he⟩
    | _ => cases hform
  | bool b =>
    cases h' with
    | bool b' =>
      have hb : b = b' := by
        cases b <;> cases b'
        · rfl
        · exact absurd (List.cons.inj he).1 (by decide)
        · exact absurd (List.cons.inj he).1 (by decide)
        · rfl
      subst hb
      exact ⟨rfl, List.append_cancel_left he⟩
    | _ => cases hform
  | @number literal hl =>
    cases h' with
    | @number literal' hl' =>
      obtain ⟨hn, hr⟩ :=
        cancel_of_ends hl.isNumberPart hl'.isNumberPart (ht _ rfl) (ht' _ rfl) he
      obtain rfl := String.toList_inj.1 hn
      exact ⟨rfl, hr⟩
    | _ => cases hform
  | string hq =>
    cases h' with
    | string hq' =>
      obtain ⟨hs, hr⟩ := hq.cancel hq' (List.cons.inj he).2
      obtain rfl := String.toList_inj.1 hs
      exact ⟨rfl, hr⟩
    | _ => cases hform
  | mark =>
    cases h' with
    | mark =>
      obtain ⟨rfl, hr⟩ := List.cons.inj he
      exact ⟨rfl, hr⟩
    | _ => cases hform

theorem Part.form_ne_space (p : Part) : p.form ≠ .space := by
  cases p <;> exact nofun

theorem Lays.unique {ps ps' : List Part} {text text' : List Char} (h : Lays ps text)
    (h' : Lays ps' text') (he : text = text') : ps = ps' := by
  induction h generalizing ps' text' with
  | nil =>
    cases h' with
    | nil => rfl
    | space => cases he
    | part hp =>
      obtain ⟨c, cs, rfl, -⟩ := hp.exists_eq_cons
      cases he
  | space hc _ ih =>
    cases h' with
    | nil => cases he
    | space _ h' => exact ih h' (List.cons.inj he).2
    | @part p _ _ _ hp =>
      obtain ⟨c, cs, rfl, hf⟩ := hp.exists_eq_cons
      rw [← (List.cons.inj he).1, formOf_space hc] at hf
      exact absurd hf.symm p.form_ne_space
  | @part p _ _ _ hp hr _ ih =>
    cases h' with
    | nil =>
      obtain ⟨c, cs, rfl, -⟩ := hp.exists_eq_cons
      cases he
    | space hc =>
      obtain ⟨c, cs, rfl, hf⟩ := hp.exists_eq_cons
      rw [(List.cons.inj he).1, formOf_space hc] at hf
      exact absurd hf.symm p.form_ne_space
    | part hp' hr' h' =>
      obtain ⟨rfl, ht⟩ := hp.cancel hp' hr hr' he
      rw [ih h' ht]

/-- A text is one document at most. -/
theorem IsText.unique {j j' : Json} {text : String} (h : j.IsText text) (h' : j'.IsText text) :
    j = j' :=
  parts_injective (Lays.unique h h' rfl)

end FlatScript.Json
