import FlatScript.Evaluation
import FlatScript.Proofs.Rounding
import FlatScript.Proofs.Single

namespace FlatScript

namespace Verb

theorem ofLetter_letter (verb : Verb) : ofLetter? verb.letter = some verb := by
  cases verb <;> rfl

theorem letter_of_ofLetter {c : Char} {verb : Verb} (h : ofLetter? c = some verb) :
    verb.letter = c := by
  grind [ofLetter?, letter]

theorem letter_ne_percent (verb : Verb) : verb.letter ≠ '%' := by
  cases verb <;> decide

theorem letter_injective {verb verb' : Verb} (h : verb.letter = verb'.letter) : verb = verb' := by
  have he := ofLetter_letter verb
  rw [h, ofLetter_letter] at he
  exact (Option.some.inj he).symm

end Verb

/-! ### Values in the places of verbs -/

section

open BinaryFormat (binary32)

inductive Value.HasText : Value → String → Prop
  | int (n : Int64) : Value.HasText (.int n) (toString n.toInt)
  | float {x : Float32} {text : String} (h : Single.Shows Single.ReadsBack x text.toList) :
      Value.HasText (.float x) text
  | string (s : String) : Value.HasText (.string s) s
  | bool (b : Bool) : Value.HasText (.bool b) (if b then "true" else "false")
  | nil : Value.HasText .nil "nil"
  | error (message : String) : Value.HasText (.error message) ("error: " ++ message)

theorem Value.hasText_text (value : Value) : value.HasText value.text := by
  cases value with
  | int n => exact .int n
  | float x => exact .float (Single.shows_write_plain x)
  | string s => exact .string s
  | bool b => cases b <;> exact .bool _
  | nil => exact .nil
  | error message => exact .error message

def Single.HasSixPlaces (i : Nat) : List Char → Prop :=
  Decimal.IsFixed 6 (binary32.units i) (Nat.pow 2 binary32.scale)

theorem Single.shows_writeFixed (x : Float32) : Shows HasSixPlaces x (writeFixed x).toList := by
  rw [writeFixed]
  refine shows_writeWith (fun i _ => ?_) x
  exact Decimal.isFixed_writeFixed (by decide) (binary32.units i) binary32.pow_scale_pos

/-- `%f` writes a number with six places, a whole number as one of double precision that it is
rounded to. Else a verb writes the value's text. -/
inductive Verb.Writes : Verb → Value → String → Prop
  | whole {n : Int64} {k : Int} (h : IsRounded 53 n.toInt k) :
      Verb.Writes .f (.int n) (toString k ++ ".000000")
  | fixed {x : Float32} {text : String}
      (h : Single.Shows Single.HasSixPlaces x text.toList) :
      Verb.Writes .f (.float x) text
  | text {verb : Verb} {value : Value} {text : String}
      (hv : verb = .f → value.type ≠ .int ∧ value.type ≠ .float) (h : value.HasText text) :
      Verb.Writes verb value text

theorem Verb.writes_write (verb : Verb) (value : Value) :
    verb.Writes value (verb.write value) := by
  match verb, value with
  | .f, .int n =>
    obtain ⟨k, htext, hk⟩ := exists_writeFixedInt_eq n
    have hw : Verb.f.write (.int n) = toString k ++ ".000000" := htext
    rw [hw]
    exact .whole hk
  | .f, .float x => exact .fixed (Single.shows_writeFixed x)
  | .f, .string _ | .f, .bool _ | .f, .nil | .f, .error _ =>
    exact .text (fun _ => ⟨nofun, nofun⟩) (Value.hasText_text _)
  | .v, _ | .s, _ | .d, _ | .t, _ => exact .text nofun (Value.hasText_text _)

end

namespace Template

/-- What a template is divided into: written percent signs, places for values, and characters that
stand for themselves. -/
inductive Part
  | percent
  | place (verb : Verb)
  | single (c : Char)
deriving DecidableEq, Repr

/-- At the beginning there is nothing that makes a percent sign in front of it more than that. -/
def EndsPercent (cs : List Char) : Prop :=
  cs.head? ≠ some '%' ∧ ∀ verb : Verb, cs.head? ≠ some verb.letter

inductive Splits : List Char → List Part → Prop
  | nil : Splits [] []
  | percent {cs : List Char} {ps : List Part} (h : Splits cs ps) :
      Splits ('%' :: '%' :: cs) (.percent :: ps)
  | place (verb : Verb) {cs : List Char} {ps : List Part} (h : Splits cs ps) :
      Splits ('%' :: verb.letter :: cs) (.place verb :: ps)
  | single {c : Char} {cs : List Char} {ps : List Part} (hc : c = '%' → EndsPercent cs)
      (h : Splits cs ps) : Splits (c :: cs) (.single c :: ps)

namespace Part

def isPlace : Part → Bool
  | .place _ => true
  | .percent | .single _ => false

/-- What a part becomes, where `value?` is the value for its place if it is one. -/
def text (value? : Option Value) : Part → String
  | .percent => "%"
  | .single c => c.toString
  | .place verb =>
    match value? with
    | some value => verb.write value
    | none => "%!" ++ verb.letter.toString ++ "(MISSING)"

def segment : Part → Segment
  | .percent => .literal '%'
  | .single c => .literal c
  | .place verb => .verb verb

end Part

def placeCount (ps : List Part) : Nat := ps.countP Part.isPlace

def extra (values : List Value) : String :=
  if values = [] then ""
  else
    "%!(EXTRA " ++
      ", ".intercalate (values.map fun value => value.type.name ++ "=" ++ value.text) ++ ")"

/-- The parts in order, each with the value whose number is that of the places in front of it; then
what is told of the values behind those that have places. -/
def substitute (ps : List Part) (values : List Value) : String :=
  String.join (ps.mapIdx fun i p => p.text values[placeCount (ps.take i)]?) ++
    extra (values.drop (placeCount ps))

/-! ### Division -/

section Division

variable {c : Char} {cs : List Char} {ps : List Part}

theorem splits_percent (h : Splits ('%' :: '%' :: cs) ps) :
    ∃ ps', ps = .percent :: ps' ∧ Splits cs ps' := by
  generalize hcs : '%' :: '%' :: cs = cs' at h
  cases h with
  | nil => cases hcs
  | percent h =>
    obtain rfl : cs = _ := by simpa using hcs
    exact ⟨_, rfl, h⟩
  | place verb h =>
    simp only [List.cons.injEq, true_and] at hcs
    exact absurd hcs.1.symm verb.letter_ne_percent
  | single hc h =>
    obtain ⟨rfl, rfl⟩ := List.cons.inj hcs
    exact absurd rfl (hc rfl).1

theorem splits_place {verb : Verb} (h : Splits ('%' :: verb.letter :: cs) ps) :
    ∃ ps', ps = .place verb :: ps' ∧ Splits cs ps' := by
  generalize hcs : '%' :: verb.letter :: cs = cs' at h
  cases h with
  | nil => cases hcs
  | percent h =>
    simp only [List.cons.injEq, true_and] at hcs
    exact absurd hcs.1 verb.letter_ne_percent
  | place verb' h =>
    simp only [List.cons.injEq, true_and] at hcs
    obtain rfl := Verb.letter_injective hcs.1
    obtain rfl := hcs.2
    exact ⟨_, rfl, h⟩
  | single hc h =>
    obtain ⟨rfl, rfl⟩ := List.cons.inj hcs
    exact absurd rfl ((hc rfl).2 verb)

theorem splits_single (hc : c = '%' → EndsPercent cs) (h : Splits (c :: cs) ps) :
    ∃ ps', ps = .single c :: ps' ∧ Splits cs ps' := by
  generalize hcs : c :: cs = cs' at h
  cases h with
  | nil => cases hcs
  | percent h =>
    obtain ⟨rfl, rfl⟩ := List.cons.inj hcs
    exact absurd rfl (hc rfl).1
  | place verb h =>
    obtain ⟨rfl, rfl⟩ := List.cons.inj hcs
    exact absurd rfl ((hc rfl).2 verb)
  | single _ h =>
    obtain ⟨rfl, rfl⟩ := List.cons.inj hcs
    exact ⟨_, rfl, h⟩

theorem Splits.unique (h : Splits cs ps) {ps' : List Part} (h' : Splits cs ps') : ps' = ps := by
  induction h generalizing ps' with
  | nil =>
    cases h'
    rfl
  | percent _ ih =>
    obtain ⟨qs, rfl, hq⟩ := splits_percent h'
    rw [ih hq]
  | place verb _ ih =>
    obtain ⟨qs, rfl, hq⟩ := splits_place h'
    rw [ih hq]
  | single hc _ ih =>
    obtain ⟨qs, rfl, hq⟩ := splits_single hc h'
    rw [ih hq]

theorem exists_splits (cs : List Char) : ∃ ps, Splits cs ps := by
  -- By the recursion of the division that the format makes.
  induction cs using segments.induct with
  | case1 => exact ⟨[], .nil⟩
  | case2 cs ih =>
    obtain ⟨ps, h⟩ := ih
    exact ⟨_, .percent h⟩
  | case3 c cs _ verb hv ih =>
    obtain ⟨ps, h⟩ := ih
    obtain rfl := Verb.letter_of_ofLetter hv
    exact ⟨_, .place verb h⟩
  | case4 c cs hc hv ih =>
    obtain ⟨ps, h⟩ := ih
    refine ⟨_, .single (fun _ => ⟨by simpa using hc, fun verb he => ?_⟩) h⟩
    obtain rfl : c = verb.letter := by simpa using he
    simp [Verb.ofLetter_letter] at hv
  | case5 c cs hc ih =>
    obtain ⟨ps, h⟩ := ih
    refine ⟨_, .single (fun he => ?_) h⟩
    cases cs with
    | nil => exact ⟨by simp, by simp⟩
    | cons d cs => exact absurd rfl (hc d cs he)

theorem segments_single (hc : c = '%' → EndsPercent cs) :
    segments (c :: cs) = .literal c :: segments cs := by
  by_cases he : c = '%'
  · obtain ⟨hp, hv⟩ := hc he
    subst he
    cases cs with
    | nil => rfl
    | cons d cs =>
      have hd : d ≠ '%' := fun h => hp (congrArg some h)
      have hn : Verb.ofLetter? d = none := by
        cases ho : Verb.ofLetter? d with
        | none => rfl
        | some verb => exact absurd (congrArg some (Verb.letter_of_ofLetter ho).symm) (hv verb)
      rw [segments, if_neg hd, hn]
  · exact segments.eq_3 c cs fun _ _ h => absurd h he

theorem Splits.segments_eq (h : Splits cs ps) : segments cs = ps.map Part.segment := by
  induction h with
  | nil => rfl
  | percent _ ih =>
    rw [segments, if_pos rfl, ih]
    rfl
  | place verb _ ih =>
    rw [segments, if_neg verb.letter_ne_percent, Verb.ofLetter_letter, ih]
    rfl
  | single hc _ ih =>
    rw [segments_single hc, ih]
    rfl

end Division

/-! ### Substitution -/

theorem writeExtra_eq (values : List Value) : writeExtra values = extra values := by
  cases values with
  | nil => rfl
  | cons value values => rfl

theorem substitute_nil (values : List Value) : substitute [] values = extra values := by
  simp [substitute, placeCount]

theorem substitute_cons {p : Part} (hp : p.isPlace = false) (ps : List Part)
    (values : List Value) : substitute (p :: ps) values = p.text none ++ substitute ps values := by
  have hc : ∀ qs, placeCount (p :: qs) = placeCount qs := fun _ =>
    List.countP_cons_of_neg (by simp [hp])
  have ht : ∀ value?, p.text value? = p.text none := fun _ => by
    cases p with
    | place => cases hp
    | percent | single => rfl
  simp only [substitute, List.mapIdx_cons, List.take_succ_cons, hc, ht, String.join_cons,
    String.append_assoc]

theorem substitute_place (verb : Verb) (ps : List Part) (values : List Value) :
    substitute (.place verb :: ps) values =
      (Part.place verb).text values.head? ++ substitute ps values.tail := by
  have hc : ∀ qs, placeCount (.place verb :: qs) = placeCount qs + 1 := fun _ =>
    List.countP_cons_of_pos rfl
  have hg : ∀ n : Nat, values[n + 1]? = values.tail[n]? := fun n => List.getElem?_tail.symm
  have hd : ∀ n, values.drop (n + 1) = values.tail.drop n := fun n => by rw [List.drop_tail]
  have hh : values[placeCount []]? = values.head? := List.head?_eq_getElem?.symm
  simp only [substitute, List.mapIdx_cons, List.take_succ_cons, List.take_zero, hc, hg, hd, hh,
    String.join_cons, String.append_assoc]

theorem fill_segments (ps : List Part) (values : List Value) :
    fill (ps.map Part.segment) values = substitute ps values := by
  induction ps generalizing values with
  | nil => exact (writeExtra_eq values).trans (substitute_nil values).symm
  | cons p ps ih =>
    cases p with
    | percent | single c =>
      rw [substitute_cons rfl, ← ih]
      rfl
    | place verb =>
      rw [substitute_place, ← ih]
      cases values with
      | nil => rfl
      | cons value values => rfl

theorem formatTemplate_of_splits {template : String} {ps : List Part}
    (h : Splits template.toList ps) (values : List Value) :
    formatTemplate template values = substitute ps values := by
  rw [formatTemplate, h.segments_eq, fill_segments]

/-! ### Percent signs that are doubled -/

def doubled (s : String) : String :=
  .ofList (s.toList.flatMap fun c => if c = '%' then ['%', '%'] else [c])

def partOf (c : Char) : Part := if c = '%' then .percent else .single c

theorem splits_doubled (cs : List Char) :
    Splits (cs.flatMap fun c => if c = '%' then ['%', '%'] else [c]) (cs.map partOf) := by
  induction cs with
  | nil => exact .nil
  | cons c cs ih =>
    rw [List.flatMap_cons, List.map_cons, partOf]
    split
    next => exact .percent ih
    next hc => exact .single (fun h => absurd h hc) ih

theorem substitute_partOf (cs : List Char) : substitute (cs.map partOf) [] = .ofList cs := by
  induction cs with
  | nil => exact substitute_nil []
  | cons c cs ih =>
    have hp : (partOf c).isPlace = false ∧ (partOf c).text none = c.toString := by
      unfold partOf
      split
      next hc => exact ⟨rfl, by rw [hc]; rfl⟩
      next => exact ⟨rfl, rfl⟩
    rw [List.map_cons, substitute_cons hp.1, hp.2, ih]
    simp

end Template

open Template

/-- A template has one division, and what is written for it is put together from this: for two
percent signs one, for each other character that stands for itself that character, and for the verb
of each number the value of that number, or else a note that it is missing; at the end stands what
is told of the values that are left over, if there are any. So a text whose percent signs are
doubled gives the text back. -/
theorem printf_substitutes (shell : Shell) (template : Value) (values : List Value) :
    (∃ ps, (∀ ps', Splits template.text.toList ps' ↔ ps' = ps) ∧
      formatTemplate template.text values = substitute ps values ∧
      Builtin.printf.run shell (template :: values) =
        (do writeOutput (substitute ps values); return .int 0)) ∧
    ∀ s, formatTemplate (doubled s) [] = s := by
  refine ⟨?_, fun s => ?_⟩
  · obtain ⟨ps, h⟩ := exists_splits template.text.toList
    have hf := formatTemplate_of_splits h values
    refine ⟨ps, fun ps' => ⟨h.unique, fun he => he ▸ h⟩, hf, ?_⟩
    rw [← hf]
    rfl
  · have h : Splits (doubled s).toList (s.toList.map partOf) := by
      rw [doubled, String.toList_ofList]
      exact splits_doubled s.toList
    rw [formatTemplate_of_splits h, substitute_partOf, String.ofList_toList]

example : formatTemplate "%%%d%%%q%s%v%" [.int 7, .string "%d"] = "%7%%q%d%!v(MISSING)%" := by
  decide +kernel

end FlatScript
