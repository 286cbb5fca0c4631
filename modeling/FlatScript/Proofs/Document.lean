import FlatScript.Program.Document
import FlatScript.Proofs.JsonWriting
import FlatScript.Proofs.Single

namespace FlatScript

open BinaryFormat (binary32 binary64)

/-! ### Numbers -/

namespace BinaryFormat

theorem exists_units_eq_mul_pow {i : Nat} (hi : i < binary32.infinity) :
    ∃ m e, binary32.units i = m * 2 ^ e ∧ m < 2 ^ 24 ∧ e ≤ 253 := by
  have hstep : binary32.step = 2 ^ 23 := rfl
  have hinf : binary32.infinity = 255 * 2 ^ 23 := rfl
  rcases Nat.lt_or_ge i binary32.step with hlt | hle
  · exact ⟨i, 0, by rw [units, if_pos hlt, Nat.pow_zero, Nat.mul_one], by omega, by omega⟩
  · obtain ⟨m, e, hu, hm, hm', hme⟩ := units_of_step_le hle
    rw [hstep] at hm hm' hme
    exact ⟨m, e, hu, by omega, by omega⟩

/-- What is a magnitude in single precision is one in double precision. -/
theorem exists_units_eq {i : Nat} (hi : i < binary32.infinity) :
    ∃ j ≤ binary64.infinity, binary64.units j = binary32.units i * 2 ^ 925 := by
  obtain ⟨m, e, hu, hm, he⟩ := exists_units_eq_mul_pow hi
  rcases Nat.eq_zero_or_pos m with rfl | hpos
  · exact ⟨0, Nat.zero_le _, by rw [hu, Nat.zero_mul, Nat.zero_mul, units, if_pos (step_pos _)]⟩
  · have hk : m.log2 < 24 := (Nat.log2_lt (Nat.ne_of_gt hpos)).2 hm
    have hstep : binary64.step = 2 ^ m.log2 * 2 ^ (52 - m.log2) := by
      rw [← Nat.pow_add, Nat.add_sub_cancel' (by omega)]
      rfl
    have hle : binary64.step ≤ m * 2 ^ (52 - m.log2) := by
      rw [hstep]
      exact Nat.mul_le_mul_right _ (Nat.log2_self_le (Nat.ne_of_gt hpos))
    have hle' : m * 2 ^ (52 - m.log2) ≤ 2 * binary64.step := by
      rw [hstep, ← Nat.mul_assoc, ← Nat.pow_succ']
      exact Nat.mul_le_mul_right _ (Nat.le_of_lt Nat.lt_log2_self)
    refine ⟨(e + 873 + m.log2) * binary64.step + m * 2 ^ (52 - m.log2), ?_, ?_⟩
    · have hs : binary64.step = 2 ^ 52 := rfl
      have hinf : binary64.infinity = 2047 * 2 ^ 52 := rfl
      rw [hs] at hle' ⊢
      omega
    · rw [units_mul_step_add hle hle', hu, Nat.pow_eq, Nat.mul_assoc, ← Nat.pow_add,
        Nat.mul_assoc, ← Nat.pow_add]
      congr 2
      omega

theorem nearest_of_units_eq {f g : BinaryFormat} {i j k : Nat} (hp : 0 < g.precision)
    (hj : j ≤ g.infinity) (hs : g.scale = k + f.scale) (hu : g.units j = f.units i * 2 ^ k) :
    g.nearest (f.units i) (Nat.pow 2 f.scale) = j := by
  rw [← nearest_units hp hj]
  refine nearest_congr f.pow_scale_pos g.pow_scale_pos ?_
  rw [hu, Nat.pow_eq, Nat.pow_eq, hs, Nat.pow_add, Nat.mul_assoc]

end BinaryFormat

namespace Single

/-- The literal is a decimal that, rounded to double precision, is the number itself. -/
structure IsLiteral (x : Float32) (literal : String) : Prop where
  isNumeral : Json.IsNumeral literal.toList
  denotes : ∃ cs d, literal.toList = signText x ++ cs ∧ Decimal.denoted? cs = some d ∧
    binary64.units (binary64.ofDecimal d) = binary32.units (magnitude x) * 2 ^ 925

theorem exists_writeJson_eq {x : Float32} (hx : magnitude x < binary32.infinity) :
    ∃ literal, writeJson? x = some literal ∧ literal.toList = signText x ++
      (binary64.shortest .even (binary64.nearest (binary32.units (magnitude x))
        (Nat.pow 2 binary32.scale))).write .json := by
  refine ⟨_, if_neg (Nat.not_le_of_lt hx), ?_⟩
  simp only [writeWith, if_neg (Nat.not_lt_of_lt hx), if_neg (Nat.ne_of_lt hx),
    String.toList_ofList]
  rfl

theorem exists_isLiteral {x : Float32} (hx : magnitude x < binary32.infinity) :
    ∃ literal, writeJson? x = some literal ∧ IsLiteral x literal := by
  obtain ⟨literal, hw, ht⟩ := exists_writeJson_eq hx
  obtain ⟨j, hj, hu⟩ := BinaryFormat.exists_units_eq hx
  rw [BinaryFormat.nearest_of_units_eq (by decide) hj rfl hu] at ht
  generalize hs : binary64.shortest .even j = d at ht
  obtain ⟨d', hd, hv⟩ := d.value_denoted_write .json
  have hr : binary64.ofDecimal d' = j := by
    rw [BinaryFormat.ofDecimal_eq_of_value_eq hv, ← hs,
      BinaryFormat.ofDecimal_shortest (by decide) hj .even]
  refine ⟨literal, hw, ?_, _, d', ht, hd, by rw [hr, hu]⟩
  have hp : ∀ c ∈ d.write .json, Json.isNumberPart c = true :=
    Decimal.forall_write (p := fun c => Json.isNumberPart c = true) .json
      (fun c hc => by simp [Json.isNumberPart, hc]) rfl rfl rfl rfl d
  obtain ⟨c, cs, hc, hcd⟩ := d.exists_write_eq_cons .json
  rw [ht, signText]
  split
  · rw [List.singleton_append]
    exact ⟨.inr rfl, hp⟩
  · rw [List.nil_append, hc]
    rw [hc, List.forall_mem_cons] at hp
    exact ⟨.inl hcd, hp.2⟩

end Single

/-! ### Documents of programs -/

namespace Expr

open Json

mutual

/-- The document is an object of one member, which is named for the form of the expression and holds
its parts. -/
inductive IsDocument : Expr → Json → Prop
  | string (s : String) : IsDocument (.string s) (.object [("StringLiteral", .string s)])
  | integer (n : Int64) :
      IsDocument (.integer n) (.object [("IntegerLiteral", .number (toString n.toInt))])
  | decimal {x : Float32} {literal : String} (hx : Single.magnitude x < binary32.infinity)
      (h : Single.IsLiteral x literal) :
      IsDocument (.decimal x) (.object [("DecimalLiteral", .number literal)])
  | infinite {x : Float32} (hx : binary32.infinity ≤ Single.magnitude x) :
      IsDocument (.decimal x) (.object [("DecimalLiteral", .null)])
  | boolean (b : Bool) : IsDocument (.boolean b) (.object [("BooleanLiteral", .bool b)])
  | null : IsDocument .null (.string "NullLiteral")
  | variable (id : NodeId) (name : String) : IsDocument (.variable id name)
      (.object [("Variable", .object [("id", .nat id), ("name", .string name)])])
  | call {id : NodeId} {name : String} {args : List Expr} {js : List Json}
      (h : AreDocuments args js) : IsDocument (.call id name args)
      (.object [("FunctionCall",
        .object [("args", .array js), ("id", .nat id), ("name", .string name)])])
  | externalCall {module function : String} {args : List Expr} {js : List Json}
      (h : AreDocuments args js) : IsDocument (.externalCall module function args)
      (.object [("ExternalCall", .object
        [("args", .array js), ("function", .string function), ("module", .string module)])])
  | binary {op : Operator} {left right : Expr} {l r : Json} (hl : IsDocument left l)
      (hr : IsDocument right r) : IsDocument (.binary op left right)
      (.object [("Binary", .object [("left", l), ("op", .string op.name), ("right", r)])])

inductive AreDocuments : List Expr → List Json → Prop
  | nil : AreDocuments [] []
  | cons {e : Expr} {es : List Expr} {j : Json} {js : List Json} (h : IsDocument e j)
      (hs : AreDocuments es js) : AreDocuments (e :: es) (j :: js)

end

mutual

theorem isDocument_toJson : ∀ e : Expr, e.IsDocument e.toJson
  | .string s => by simpa [toJson, record] using IsDocument.string s
  | .integer n => by simpa [toJson, record] using IsDocument.integer n
  | .decimal x => by
    by_cases hx : Single.magnitude x < binary32.infinity
    · obtain ⟨literal, hw, hl⟩ := Single.exists_isLiteral hx
      simpa [toJson, record, hw] using IsDocument.decimal hx hl
    · have hw : Single.writeJson? x = none := if_pos (Nat.le_of_not_lt hx)
      simpa [toJson, record, hw] using IsDocument.infinite (Nat.le_of_not_lt hx)
  | .boolean b => by simpa [toJson, record] using IsDocument.boolean b
  | .null => .null
  | .variable id name => by
    simpa [toJson, record, List.mergeSort] using IsDocument.variable id name
  | .call id name args => by
    have h : IsDocument (.call id name args) _ := .call (areDocuments_toJsonAll args)
    simpa [toJson, record, List.mergeSort] using h
  | .externalCall module function args => by
    simpa [toJson, record, List.mergeSort] using
      IsDocument.externalCall (areDocuments_toJsonAll args)
  | .binary op left right => by
    simpa [toJson, record, List.mergeSort] using
      IsDocument.binary (isDocument_toJson left) (isDocument_toJson right)

theorem areDocuments_toJsonAll : ∀ es : List Expr, AreDocuments es (toJsonAll es)
  | [] => .nil
  | e :: es => .cons (isDocument_toJson e) (areDocuments_toJsonAll es)

end

mutual

theorem IsDocument.hasNumerals {e : Expr} {j : Json} (h : e.IsDocument j) : j.HasNumerals := by
  match h with
  | .string s => simp
  | .integer n => simpa using isNumeral_toString n.toInt
  | .decimal _ hl => simpa using hl.isNumeral
  | .infinite _ => simp
  | .boolean b => simp
  | .null => simp
  | .variable id name => simp
  | .call ha =>
    simpa using ha.hasNumerals
  | .externalCall ha =>
    simpa using ha.hasNumerals
  | .binary hl hr =>
    simp [hl.hasNumerals, hr.hasNumerals]

theorem AreDocuments.hasNumerals {es : List Expr} {js : List Json} (h : AreDocuments es js) :
    ∀ j ∈ js, j.HasNumerals := by
  match h with
  | .nil => exact nofun
  | .cons h hs => exact List.forall_mem_cons.2 ⟨h.hasNumerals, hs.hasNumerals⟩

end

end Expr

namespace Statement

open Json

/-- What stands for the initial value of a variable, which may be left out. -/
inductive InitIsDocument : Option Expr → Json → Prop
  | none : InitIsDocument none .null
  | some {e : Expr} {j : Json} (h : e.IsDocument j) : InitIsDocument (some e) j

mutual

inductive IsDocument : Statement → Json → Prop
  | importFile (path : String) :
      IsDocument (.importFile path) (.object [("Import", .object [("path", .string path)])])
  | function {name : String} {body : List Statement} {js : List Json}
      (h : AreDocuments body js) : IsDocument (.function name body)
      (.object [("Function",
        .object [("body", .object [("statements", .array js)]), ("name", .string name)])])
  | variable {name typeName : String} {init : Option Expr} {j : Json}
      (h : InitIsDocument init j) : IsDocument (.variable name typeName init)
      (.object [("Variable",
        .object [("init", j), ("name", .string name), ("type_name", .string typeName)])])
  | expression {e : Expr} {j : Json} (h : e.IsDocument j) :
      IsDocument (.expression e) (.object [("Expression", j)])

inductive AreDocuments : List Statement → List Json → Prop
  | nil : AreDocuments [] []
  | cons {s : Statement} {ss : List Statement} {j : Json} {js : List Json} (h : IsDocument s j)
      (hs : AreDocuments ss js) : AreDocuments (s :: ss) (j :: js)

end

theorem initIsDocument_toJson : ∀ init : Option Expr,
    InitIsDocument init ((init.map Expr.toJson).getD .null)
  | none => .none
  | some e => .some e.isDocument_toJson

mutual

theorem isDocument_toJson : ∀ s : Statement, s.IsDocument s.toJson
  | .importFile path => by simpa [toJson, record] using IsDocument.importFile path
  | .function name body => by
    have h : IsDocument (.function name body) _ := .function (areDocuments_toJsonAll body)
    simpa [toJson, record, List.mergeSort] using h
  | .variable name typeName init => by
    have h : IsDocument (.variable name typeName init) _ := .variable (initIsDocument_toJson init)
    simpa [toJson, record, List.mergeSort] using h
  | .expression e => by simpa [toJson, record] using IsDocument.expression e.isDocument_toJson

theorem areDocuments_toJsonAll : ∀ ss : List Statement, AreDocuments ss (toJsonAll ss)
  | [] => .nil
  | s :: ss => .cons (isDocument_toJson s) (areDocuments_toJsonAll ss)

end

theorem InitIsDocument.hasNumerals {init : Option Expr} {j : Json} (h : InitIsDocument init j) :
    j.HasNumerals := by
  cases h with
  | none => simp
  | some h => exact h.hasNumerals

mutual

theorem IsDocument.hasNumerals {s : Statement} {j : Json} (h : s.IsDocument j) :
    j.HasNumerals := by
  match h with
  | .importFile path => simp
  | .function hb =>
    simpa using hb.hasNumerals
  | .variable hi => simpa using hi.hasNumerals
  | .expression he => simpa using he.hasNumerals

theorem AreDocuments.hasNumerals {ss : List Statement} {js : List Json} (h : AreDocuments ss js) :
    ∀ j ∈ js, j.HasNumerals := by
  match h with
  | .nil => exact nofun
  | .cons h hs => exact List.forall_mem_cons.2 ⟨h.hasNumerals, hs.hasNumerals⟩

end

end Statement

namespace Program

inductive IsDocument : Program → Json → Prop
  | mk {statements : List Statement} {js : List Json}
      (h : Statement.AreDocuments statements js) :
      IsDocument ⟨statements⟩ (.object [("statements", .array js)])

theorem isDocument_toJson (p : Program) : p.IsDocument p.toJson := by
  simpa [toJson, Json.record] using
    IsDocument.mk (Statement.areDocuments_toJsonAll p.statements)

theorem IsDocument.hasNumerals {p : Program} {j : Json} (h : p.IsDocument j) : j.HasNumerals := by
  obtain ⟨hs⟩ := h
  simpa using hs.hasNumerals

end Program

end FlatScript
