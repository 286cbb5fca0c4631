import FlatScript.Program
import FlatScript.Proofs.Indentation
import FlatScript.Proofs.Lexeme
import FlatScript.Proofs.Numeral
import FlatScript.Proofs.Single

namespace FlatScript

theorem IsIdentifier.not_mem {name : String} (h : IsIdentifier name) {c : Char}
    (hc : isWordPart c = false) : c ∉ name.toList := by
  intro hm
  rw [h.1.isWordPart c hm] at hc
  exact Bool.noConfusion hc

/-! ### Titles of expressions -/

namespace Expr

/-- What an outline says in the line of an expression. -/
def title : Expr → String
  | .string s => "\"" ++ s ++ "\""
  | .integer n => toString n.toInt
  | .decimal x => Single.write .outline x
  | .boolean b => toString b
  | .null => "null"
  | .variable _ name => "Variable " ++ name
  | .call _ name _ => "FunctionCall " ++ name
  | .externalCall module function _ => "ExternalCall " ++ module ++ "::" ++ function
  | .binary op _ _ => "Binary " ++ op.symbol

@[simp] theorem title_string (s : String) : title (.string s) = "\"" ++ s ++ "\"" := rfl

@[simp] theorem title_integer (n : Int64) : title (.integer n) = toString n.toInt := rfl

@[simp] theorem title_decimal (x : Float32) : title (.decimal x) = Single.write .outline x := rfl

@[simp] theorem title_boolean (b : Bool) : title (.boolean b) = toString b := rfl

@[simp] theorem title_null : title .null = "null" := rfl

@[simp] theorem title_variable (id : NodeId) (name : String) :
    title (.variable id name) = "Variable " ++ name := rfl

@[simp] theorem title_call (id : NodeId) (name : String) (args : List Expr) :
    title (.call id name args) = "FunctionCall " ++ name := rfl

@[simp] theorem title_externalCall (module function : String) (args : List Expr) :
    title (.externalCall module function args) =
      "ExternalCall " ++ module ++ "::" ++ function := rfl

@[simp] theorem title_binary (op : Operator) (left right : Expr) :
    title (.binary op left right) = "Binary " ++ op.symbol := rfl

inductive Form
  | string | integer | decimal | boolean | null | variable | call | externalCall | binary

def form : Expr → Form
  | .string _ => .string
  | .integer _ => .integer
  | .decimal _ => .decimal
  | .boolean _ => .boolean
  | .null => .null
  | .variable _ _ => .variable
  | .call _ _ _ => .call
  | .externalCall _ _ _ => .externalCall
  | .binary _ _ _ => .binary

/-- The form that is told by how a title begins; a number is an integer if all of it is digits. -/
def formOf : List Char → Form
  | '"' :: _ => .string
  | 't' :: _ | 'f' :: _ => .boolean
  | 'n' :: _ => .null
  | 'V' :: _ => .variable
  | 'F' :: _ => .call
  | 'E' :: _ => .externalCall
  | 'B' :: _ => .binary
  | cs => if cs.all Char.isDigit then .integer else .decimal

theorem formOf_number {c : Char} (h : c.isDigit = true ∨ c ∈ ['i', '-', 'N']) (cs : List Char) :
    formOf (c :: cs) = if (c :: cs).all Char.isDigit then .integer else .decimal := by
  unfold formOf
  split
  all_goals first | rfl | exact absurd ((List.cons.inj ‹c :: cs = _›).1 ▸ h) (by decide)

mutual

/-- Expressions as they are written: strings have no quotes in them, names are identifiers, and
integers have no sign. -/
def IsLegible : Expr → Prop
  | .string s => '"' ∉ s.toList
  | .integer n => 0 ≤ n.toInt
  | .decimal _ | .boolean _ | .null => True
  | .variable _ name => IsIdentifier name
  | .call _ name args => IsIdentifier name ∧ AreLegible args
  | .externalCall module function args =>
    IsIdentifier module ∧ IsIdentifier function ∧ AreLegible args
  | .binary _ left right => left.IsLegible ∧ right.IsLegible

def AreLegible : List Expr → Prop
  | [] => True
  | e :: es => e.IsLegible ∧ AreLegible es

end

theorem toList_title_integer {n : Int64} (h : 0 ≤ n.toInt) :
    (title (.integer n)).toList = Nat.toDigits 10 n.toInt.toNat := by
  obtain ⟨m, hm⟩ := Int.eq_ofNat_of_zero_le h
  rw [title_integer, hm]
  exact Nat.toList_repr

theorem eq_of_title_integer_eq {n n' : Int64} (h : 0 ≤ n.toInt) (h' : 0 ≤ n'.toInt)
    (ht : title (.integer n) = title (.integer n')) : n = n' := by
  have hd : Nat.toDigits 10 n.toInt.toNat = Nat.toDigits 10 n'.toInt.toNat := by
    rw [← toList_title_integer h, ← toList_title_integer h', ht]
  have hn : n.toInt.toNat = n'.toInt.toNat := by
    rw [← @Nat.ofDigitChars_ten_toDigits n.toInt.toNat, hd, Nat.ofDigitChars_ten_toDigits]
  exact Int64.toInt_inj.1 (by omega)

theorem exists_toDigits_eq_cons (n : Nat) :
    ∃ c cs, Nat.toDigits 10 n = c :: cs ∧ (c :: cs).all Char.isDigit = true := by
  obtain ⟨c, cs, h⟩ := List.exists_cons_of_ne_nil (Nat.toDigits_ne_nil (b := 10) (n := n))
  refine ⟨c, cs, h, List.all_eq_true.2 fun d hd => ?_⟩
  exact isDigits_toDigits n d (h ▸ hd)

theorem formOf_title {e : Expr} (h : e.IsLegible) : formOf e.title.toList = e.form := by
  cases e with
  | string s => simp [formOf, form]
  | integer n =>
    obtain ⟨c, cs, hn, hd⟩ := exists_toDigits_eq_cons n.toInt.toNat
    rw [toList_title_integer h, hn, formOf_number (.inl (List.all_eq_true.1 hd c List.mem_cons_self)),
      if_pos hd]
    rfl
  | decimal x =>
    obtain ⟨c, cs, hx, hc⟩ := Single.exists_write_eq_cons .outline x
    obtain ⟨d, hd, hnd⟩ := Single.exists_mem_write_outline x
    have hall : ¬ (c :: cs).all Char.isDigit = true := by
      intro h
      rw [hx] at hd
      rw [List.all_eq_true.1 h d hd] at hnd
      exact Bool.noConfusion hnd
    rw [title_decimal, hx, formOf_number hc, if_neg hall]
    rfl
  | boolean b => cases b <;> rfl
  | null => rfl
  | «variable» id name => simp [formOf, form]
  | call id name args => simp [formOf, form]
  | externalCall module function args => simp [formOf, form]
  | binary op left right => simp [formOf, form]

/-- Expressions that are the same up to numbers and parts. -/
inductive Alike : Expr → Expr → Prop
  | string (s : String) : Alike (.string s) (.string s)
  | integer (n : Int64) : Alike (.integer n) (.integer n)
  | decimal (x : Float32) : Alike (.decimal x) (.decimal x)
  | boolean (b : Bool) : Alike (.boolean b) (.boolean b)
  | null : Alike .null .null
  | variable (id id' : NodeId) (name : String) : Alike (.variable id name) (.variable id' name)
  | call (id id' : NodeId) (name : String) (args args' : List Expr) :
      Alike (.call id name args) (.call id' name args')
  | externalCall (module function : String) (args args' : List Expr) :
      Alike (.externalCall module function args) (.externalCall module function args')
  | binary (op : Operator) (left left' right right' : Expr) :
      Alike (.binary op left right) (.binary op left' right')

theorem alike_of_title_eq {e e' : Expr} (h : e.IsLegible) (h' : e'.IsLegible)
    (ht : e.title = e'.title) : e.Alike e' := by
  have hf : e.form = e'.form := by rw [← formOf_title h, ← formOf_title h', ht]
  cases e with
  | string s =>
    cases e' with
    | string s' =>
      obtain rfl : s = s' := by simpa using ht
      exact .string s
    | _ => cases hf
  | integer n =>
    cases e' with
    | integer n' =>
      obtain rfl := eq_of_title_integer_eq h h' ht
      exact .integer n
    | _ => cases hf
  | decimal x =>
    cases e' with
    | decimal x' =>
      obtain rfl := Single.write_injective _ ht
      exact .decimal x
    | _ => cases hf
  | boolean b =>
    cases e' with
    | boolean b' =>
      obtain rfl : b = b' := by revert ht; cases b <;> cases b' <;> decide
      exact .boolean b
    | _ => cases hf
  | null =>
    cases e' with
    | null => exact .null
    | _ => cases hf
  | «variable» id name =>
    cases e' with
    | «variable» id' name' =>
      obtain rfl : name = name' := by simpa using ht
      exact .variable id id' name
    | _ => cases hf
  | call id name args =>
    cases e' with
    | call id' name' args' =>
      obtain rfl : name = name' := by simpa using ht
      exact .call id id' name args args'
    | _ => cases hf
  | externalCall module function args =>
    cases e' with
    | externalCall module' function' args' =>
      have hm : module.toList ++ ':' :: ':' :: function.toList =
          module'.toList ++ ':' :: ':' :: function'.toList := by
        simpa using congrArg String.toList ht
      obtain ⟨hm, hr⟩ := Indented.cancel_of_not_mem (h.1.not_mem rfl) (h'.1.not_mem rfl) hm
      obtain rfl := String.toList_inj.1 hm
      obtain rfl : function = function' := String.toList_inj.1 (List.cons.inj hr).2
      exact .externalCall module function args args'
    | _ => cases hf
  | binary op left right =>
    cases e' with
    | binary op' left' right' =>
      have hs : op.symbol = op'.symbol := by simpa using ht
      have ho := Operator.ofSymbol_symbol op
      rw [hs, Operator.ofSymbol_symbol] at ho
      obtain rfl : op = op' := (Option.some.inj ho).symm
      exact .binary op left left' right right'
    | _ => cases hf

theorem isLabel_title {e : Expr} (h : e.IsLegible) : Indented.IsLabel e.title.toList := by
  have hw : isWordPart '\n' = false := rfl
  cases e with
  | string s =>
    have hs := Indented.IsLabel.quoted h
    simpa using hs
  | integer n =>
    obtain ⟨c, cs, hn, hd⟩ := exists_toDigits_eq_cons n.toInt.toNat
    have hne : ∀ b : Char, b.isDigit = false → b ∉ c :: cs := by
      intro b hb hm
      rw [List.all_eq_true.1 hd b hm] at hb
      exact Bool.noConfusion hb
    rw [toList_title_integer h, hn]
    exact .plain ⟨(List.ne_of_not_mem_cons (hne '\t' rfl)).symm,
      (List.ne_of_not_mem_cons (hne '"' rfl)).symm, hne '\n' rfl⟩
  | decimal x =>
    obtain ⟨c, cs, hx, hc⟩ := Single.exists_write_eq_cons .outline x
    have hn := Single.newline_not_mem_write .outline x
    have hne : ∀ b : Char, ¬ (b.isDigit = true ∨ b ∈ ['i', '-', 'N']) → c ≠ b := by
      rintro b hb rfl
      exact hb hc
    rw [hx] at hn
    rw [title_decimal, hx]
    exact .plain ⟨hne '\t' (by decide), hne '"' (by decide), hn⟩
  | boolean b => cases b <;> exact .plain (by decide)
  | null => exact .plain (by decide)
  | «variable» id name =>
    rw [title_variable, String.toList_append]
    exact .plain (Indented.IsPlain.append (by decide) (h.not_mem hw))
  | call id name args =>
    rw [title_call, String.toList_append]
    exact .plain (Indented.IsPlain.append (by decide) (h.1.not_mem hw))
  | externalCall module function args =>
    rw [title_externalCall, String.toList_append, String.toList_append, String.toList_append]
    have hm : Indented.IsPlain ("ExternalCall ".toList ++ module.toList) :=
      .append (by decide) (h.1.not_mem hw)
    exact .plain ((hm.append (by decide)).append (h.2.1.not_mem hw))
  | binary op left right =>
    rw [title_binary, String.toList_append]
    refine .plain (Indented.IsPlain.append (by decide) ?_)
    cases op <;> decide

theorem title_ne_of_isLegible {e : Expr} (h : e.IsLegible) : e.title ≠ "no initialization" := by
  intro ht
  have hf := formOf_title h
  rw [ht] at hf
  cases e with
  | null => exact absurd ht (by decide)
  | _ => cases hf

end Expr

/-! ### Titles of statements -/

namespace Statement

def title : Statement → String
  | .importFile path => "Import " ++ path
  | .function name _ => "FunctionDecl " ++ name
  | .variable name typeName _ => "VariableDecl " ++ name ++ ", type " ++ typeName
  | .expression _ => "ExpressionStatement"

@[simp] theorem title_importFile (path : String) :
    title (.importFile path) = "Import " ++ path := rfl

@[simp] theorem title_function (name : String) (body : List Statement) :
    title (.function name body) = "FunctionDecl " ++ name := rfl

@[simp] theorem title_variable (name typeName : String) (init : Option Expr) :
    title (.variable name typeName init) = "VariableDecl " ++ name ++ ", type " ++ typeName := rfl

@[simp] theorem title_expression (e : Expr) :
    title (.expression e) = "ExpressionStatement" := rfl

mutual

/-- Statements as they are written, with paths that have no line breaks in them. -/
def IsLegible : Statement → Prop
  | .importFile path => '\n' ∉ path.toList
  | .function name body => IsIdentifier name ∧ AreLegible body
  | .variable name typeName init =>
    IsIdentifier name ∧ '\n' ∉ typeName.toList ∧ ∀ e ∈ init, e.IsLegible
  | .expression e => e.IsLegible

def AreLegible : List Statement → Prop
  | [] => True
  | s :: ss => s.IsLegible ∧ AreLegible ss

end

inductive Alike : Statement → Statement → Prop
  | importFile (path : String) : Alike (.importFile path) (.importFile path)
  | function (name : String) (body body' : List Statement) :
      Alike (.function name body) (.function name body')
  | variable (name typeName : String) (init init' : Option Expr) :
      Alike (.variable name typeName init) (.variable name typeName init')
  | expression (e e' : Expr) : Alike (.expression e) (.expression e')

theorem alike_of_title_eq {s s' : Statement} (h : s.IsLegible) (h' : s'.IsLegible)
    (ht : s.title = s'.title) : s.Alike s' := by
  have hc : s.title.toList = s'.title.toList := by rw [ht]
  cases s with
  | importFile path =>
    cases s' with
    | importFile path' =>
      obtain rfl : path = path' := by simpa using ht
      exact .importFile path
    | _ => simp at hc
  | function name body =>
    cases s' with
    | function name' body' =>
      obtain rfl : name = name' := by simpa using ht
      exact .function name body body'
    | _ => simp at hc
  | «variable» name typeName init =>
    cases s' with
    | «variable» name' typeName' init' =>
      have hn : name.toList ++ ',' :: (" type ".toList ++ typeName.toList) =
          name'.toList ++ ',' :: (" type ".toList ++ typeName'.toList) := by
        simpa using hc
      obtain ⟨hn, hy⟩ := Indented.cancel_of_not_mem (h.1.not_mem rfl) (h'.1.not_mem rfl) hn
      obtain rfl := String.toList_inj.1 hn
      obtain rfl := String.toList_inj.1 (List.append_cancel_left hy)
      exact .variable name typeName init init'
    | _ => simp at hc
  | expression e =>
    cases s' with
    | expression e' => exact .expression e e'
    | _ => simp at hc

theorem isLabel_title {s : Statement} (h : s.IsLegible) : Indented.IsLabel s.title.toList := by
  have hw : isWordPart '\n' = false := rfl
  cases s with
  | importFile path =>
    rw [title_importFile, String.toList_append]
    exact .plain (Indented.IsPlain.append (by decide) h)
  | function name body =>
    rw [title_function, String.toList_append]
    exact .plain (Indented.IsPlain.append (by decide) (h.1.not_mem hw))
  | «variable» name typeName init =>
    rw [title_variable, String.toList_append, String.toList_append, String.toList_append]
    have hn : Indented.IsPlain ("VariableDecl ".toList ++ name.toList) :=
      .append (by decide) (h.1.not_mem hw)
    exact .plain ((hn.append (by decide)).append h.2.1)
  | expression e =>
    rw [title_expression]
    exact .plain (by decide)

end Statement

end FlatScript
