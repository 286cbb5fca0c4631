import FlatScript.Proofs.Evaluated

namespace FlatScript

def Machine.limited (m : Machine) (n : Nat) : Machine :=
  { m with output := { m.output with room := some n } }

/-- What a builtin writes, if it writes anything. -/
def Builtin.written? : Builtin → List Value → Option String
  | .print, args => some (" ".intercalate (args.map Value.text) ++ "\n")
  | .printf, [] => some "\n"
  | .printf, template :: values => some (formatTemplate template.text values)
  | .exec, _ => none

/-! ### Writes -/

section Writes

variable (shell : Shell) (invoke : NodeId → String → Eval Value)
  (within : NodeId → String → Machine → String → Machine → Prop)

mutual

/-- On the way of evaluating the expression from the machine `m`, a builtin begins to write `text`
when the machine is `m'`. `within` tells the writes in the calls of declared functions. -/
inductive Expr.Writes : Expr → Machine → String → Machine → Prop
  | builtin {b : Builtin} {id : NodeId} {name : String} {args : List Expr} {values : List Value}
      {m m' : Machine} {text : String} (hb : Builtin.ofName? name = some b)
      (ha : (Expr.evalAll shell invoke args).run m = (.ok values, m'))
      (ht : b.written? values = some text) : Expr.Writes (.call id name args) m text m'
  | argument {id : NodeId} {name : String} {args : List Expr} {m m' : Machine} {text : String}
      (hb : isBuiltin name = true) (h : Expr.WritesAll args m text m') :
      Expr.Writes (.call id name args) m text m'
  | call {id : NodeId} {name : String} {args : List Expr} {m m' : Machine} {text : String}
      (hb : isBuiltin name = false) (h : within id name m text m') :
      Expr.Writes (.call id name args) m text m'
  | assigned {op : Operator} {id : NodeId} {name : String} {right : Expr} {m m' : Machine}
      {text : String} (ho : op.isAssignment = true) (h : Expr.Writes right m text m') :
      Expr.Writes (.binary op (.variable id name) right) m text m'
  | left {op : Operator} {left right : Expr} {m m' : Machine} {text : String}
      (ho : op.isAssignment = false) (h : Expr.Writes left m text m') :
      Expr.Writes (.binary op left right) m text m'
  | right {op : Operator} {left right : Expr} {value : Value} {m m₁ m' : Machine} {text : String}
      (ho : op.isAssignment = false) (hl : (left.eval shell invoke).run m = (.ok value, m₁))
      (h : Expr.Writes right m₁ text m') : Expr.Writes (.binary op left right) m text m'

inductive Expr.WritesAll : List Expr → Machine → String → Machine → Prop
  | head {e : Expr} {es : List Expr} {m m' : Machine} {text : String}
      (h : Expr.Writes e m text m') : Expr.WritesAll (e :: es) m text m'
  | tail {e : Expr} {es : List Expr} {value : Value} {m m₁ m' : Machine} {text : String}
      (he : (e.eval shell invoke).run m = (.ok value, m₁)) (h : Expr.WritesAll es m₁ text m') :
      Expr.WritesAll (e :: es) m text m'

end

inductive Statement.Writes : Statement → Machine → String → Machine → Prop
  | init {name typeName : String} {e : Expr} {m m' : Machine} {text : String}
      (h : Expr.Writes shell invoke within e m text m') :
      Statement.Writes (.variable name typeName (some e)) m text m'
  | expression {e : Expr} {m m' : Machine} {text : String}
      (h : Expr.Writes shell invoke within e m text m') :
      Statement.Writes (.expression e) m text m'

inductive Statement.WritesAll : List Statement → Machine → String → Machine → Prop
  | head {s : Statement} {ss : List Statement} {m m' : Machine} {text : String}
      (h : Statement.Writes shell invoke within s m text m') :
      Statement.WritesAll (s :: ss) m text m'
  | tail {s : Statement} {ss : List Statement} {value : Value} {m m₁ m' : Machine} {text : String}
      (hs : (s.eval shell invoke).run m = (.ok value, m₁))
      (h : Statement.WritesAll ss m₁ text m') : Statement.WritesAll (s :: ss) m text m'

end Writes

def Resolution.Writes (r : Resolution) (shell : Shell) :
    Nat → NodeId → String → Machine → String → Machine → Prop
  | 0, _, _, _, _, _ => False
  | calls + 1, id, _, m, text, m' =>
    ∃ body, r.functionFor? id = some body ∧
      Statement.WritesAll shell (r.invoke shell calls) (r.Writes shell calls) body m text m'

/-- On the way of running the program from the machine `m`, a builtin begins to write `text` when
the machine is `m'`. -/
def Program.Writes (p : Program) (shell : Shell) (r : Resolution) (m : Machine) (text : String)
    (m' : Machine) : Prop :=
  Statement.WritesAll shell (r.invoke shell maxCallDepth) (r.Writes shell maxCallDepth)
    p.statements m text m'

/-! ### Steps with a limit -/

namespace Eval

variable {α β : Type} {x : Eval α} {f : α → Eval β} {m : Machine}
  {writes writes' : String → Machine → Prop}

/-- From the machine `m`, whose output has no limit, the steps write the bytes `new`. With room for
them the steps do the same. With less room they end at one of the `writes`, the one that goes beyond
the room, with the environment as it is there. -/
structure Truncates (x : Eval α) (m : Machine) (writes : String → Machine → Prop)
    (new : ByteArray) : Prop where
  room : (x.run m).2.output.room = none
  bytes : (x.run m).2.output.bytes = m.output.bytes ++ new
  fits : ∀ n, new.size ≤ n →
    x.run (m.limited n) = ((x.run m).1, (x.run m).2.limited (n - new.size))
  refused : ∀ n, n < new.size → ∃ text m', writes text m' ∧
    m'.output.bytes.size ≤ m.output.bytes.size + n ∧
    m.output.bytes.size + n < (m'.output.bytes ++ text.toUTF8).size ∧
    x.run (m.limited n) =
      (.error .outputFull, ⟨m'.environment, ⟨m.output.bytes ++ new.extract 0 n, some 0⟩⟩)

theorem Truncates.mono {new : ByteArray} (h : x.Truncates m writes new)
    (hw : ∀ text m', writes text m' → writes' text m') : x.Truncates m writes' new where
  room := h.room
  bytes := h.bytes
  fits := h.fits
  refused n hn := by
    obtain ⟨text, m', hm, hr⟩ := h.refused n hn
    exact ⟨text, m', hw _ _ hm, hr⟩

/-- Steps that have nothing to do with the output. -/
def Silent (x : Eval α) : Prop :=
  ∀ m out, x.run { m with output := out } = ((x.run m).1, { (x.run m).2 with output := out })

theorem Silent.truncates (h : x.Silent) (hm : m.output.room = none)
    (writes : String → Machine → Prop) : x.Truncates m writes .empty := by
  have ho : (x.run m).2.output = m.output := congrArg (·.2.output) (h m m.output)
  refine ⟨by rw [ho, hm], by rw [ho, ByteArray.append_empty], fun n _ => ?_, fun n hn => ?_⟩
  · rw [Machine.limited, h m, Machine.limited, ho]
    rfl
  · exact absurd hn (Nat.not_lt_zero n)

theorem silent_pure (a : α) : (pure a : Eval α).Silent := fun _ _ => rfl

theorem silent_throw (e : RuntimeError) : (throw e : Eval α).Silent := fun _ _ => rfl

theorem silent_ofExcept (r : Except RuntimeError α) : (liftM r : Eval α).Silent := fun _ _ => rfl

theorem silent_lookupVariable (name : String) : (lookupVariable name).Silent := fun _ _ => rfl

theorem silent_setVariable (name : String) (value : Value) : (setVariable name value).Silent :=
  fun _ _ => rfl

theorem Silent.bind (hx : x.Silent) (hf : ∀ a, (f a).Silent) : (x >>= f).Silent := by
  intro m out
  rw [run_bind, run_bind, hx m out]
  rcases x.run m with ⟨e | a, m'⟩
  · rfl
  · exact hf a m' out

theorem truncates_writeOutput {text : String} (hm : m.output.room = none) (hw : writes text m) :
    (writeOutput text).Truncates m writes text.toUTF8 := by
  obtain ⟨env, bytes, room⟩ := m
  obtain rfl : room = none := hm
  have hlimited (n : Nat) : (writeOutput text).run (Machine.limited ⟨env, ⟨bytes, none⟩⟩ n) =
      (if text.toUTF8.size ≤ n then .ok () else .error .outputFull,
        ⟨env, ⟨bytes ++ text.toUTF8.extract 0 n, some (n - text.toUTF8.size)⟩⟩) := by
    rw [run_writeOutput]
    simp only [Machine.limited, Output.write, decide_eq_true_eq]
  refine ⟨rfl, rfl, fun n hn => ?_, fun n hn => ⟨text, _, hw, Nat.le_add_right _ n, ?_, ?_⟩⟩
  · have he : text.toUTF8.extract 0 n = text.toUTF8 := by
      rw [← Nat.max_eq_left hn, ByteArray.extract_zero_max_size]
    rw [hlimited, if_pos hn, he]
    rfl
  · rw [ByteArray.size_append]
    exact Nat.add_lt_add_left hn _
  · rw [hlimited, if_neg (Nat.not_le_of_lt hn), Nat.sub_eq_zero_of_le (Nat.le_of_lt hn)]

theorem Truncates.bind {new : ByteArray} (hx : x.Truncates m writes new)
    (hf : ∀ a m₁, x.run m = (.ok a, m₁) → m₁.output.room = none →
      ∃ new', (f a).Truncates m₁ writes new') :
    ∃ new', (x >>= f).Truncates m writes new' := by
  obtain ⟨r, m₁, hr⟩ : ∃ r m₁, x.run m = (r, m₁) := ⟨_, _, rfl⟩
  obtain ⟨hroom, hbytes, hfits, hrefused⟩ := hx
  simp only [hr] at hroom hbytes hfits
  cases r with
  | error e =>
    refine ⟨new, ?_, ?_, fun n hn => ?_, fun n hn => ?_⟩
    · rw [run_bind, hr]
      exact hroom
    · rw [run_bind, hr]
      exact hbytes
    · rw [run_bind, run_bind, hr, hfits n hn]
    · obtain ⟨text, m', hw, hle, hlt, hrun⟩ := hrefused n hn
      exact ⟨text, m', hw, hle, hlt, by rw [run_bind, hrun]⟩
  | ok a =>
    obtain ⟨new', hroom', hbytes', hfits', hrefused'⟩ := hf a m₁ hr hroom
    have hsize : m₁.output.bytes.size = m.output.bytes.size + new.size := by
      rw [hbytes, ByteArray.size_append]
    refine ⟨new ++ new', ?_, ?_, fun n hn => ?_, fun n hn => ?_⟩
    · rw [run_bind, hr]
      exact hroom'
    · rw [run_bind, hr, ← ByteArray.append_assoc, ← hbytes]
      exact hbytes'
    · rw [ByteArray.size_append] at hn
      rw [run_bind, run_bind, hr, hfits n (by omega), ByteArray.size_append, ← Nat.sub_sub]
      exact hfits' (n - new.size) (by omega)
    · rw [ByteArray.size_append] at hn
      rw [run_bind, ByteArray.extract_append, Nat.zero_sub, ← ByteArray.append_assoc]
      by_cases hlt : n < new.size
      · -- The first steps do not get to their end, so nothing of the others is stored.
        obtain ⟨text, m', hw, hle, hlt', hrun⟩ := hrefused n hlt
        have hempty : new'.extract 0 (n - new.size) = .empty :=
          ByteArray.extract_eq_empty_iff.2 (by omega)
        exact ⟨text, m', hw, hle, hlt', by rw [hrun, hempty, ByteArray.append_empty]⟩
      · obtain ⟨text, m', hw, hle, hlt', hrun⟩ := hrefused' (n - new.size) (by omega)
        have hall : new.extract 0 n = new := by
          rw [← Nat.max_eq_left (Nat.le_of_not_lt hlt), ByteArray.extract_zero_max_size]
        exact ⟨text, m', hw, by omega, by omega,
          by rw [hfits n (by omega), hall, ← hbytes]; exact hrun⟩

end Eval

/-! ### Programs with a limit -/

namespace Builtin

variable {shell : Shell} {b : Builtin} {args : List Value}

theorem run_of_written {text : String} (h : b.written? args = some text) :
    b.run shell args = (do writeOutput text; return .int 0) := by
  cases b with
  | print =>
    obtain rfl := Option.some.inj h
    rfl
  | printf =>
    cases args <;>
    · obtain rfl := Option.some.inj h
      rfl
  | exec => simp [written?] at h

theorem silent_run (h : b.written? args = none) : (b.run shell args).Silent := by
  cases b with
  | print => simp [written?] at h
  | printf => cases args <;> simp [written?] at h
  | exec =>
    simp only [run, runExec]
    split
    · exact Eval.silent_pure _
    · exact Eval.silent_throw _

end Builtin

theorem silent_assignVariable (op : Operator) (name : String) (value : Value) :
    (assignVariable op name value).Silent :=
  (Eval.silent_lookupVariable name).bind fun _ => (Eval.silent_ofExcept _).bind fun stored =>
    (Eval.silent_setVariable name stored).bind fun _ => Eval.silent_pure stored

section Evaluation

open Eval

variable {shell : Shell} {invoke : NodeId → String → Eval Value}
  {within : NodeId → String → Machine → String → Machine → Prop}

mutual

theorem Expr.exists_truncates
    (hi : ∀ id name m, m.output.room = none →
      ∃ new, (invoke id name).Truncates m (within id name m) new) :
    ∀ (e : Expr) (m : Machine), m.output.room = none →
      ∃ new, (e.eval shell invoke).Truncates m (e.Writes shell invoke within m) new
  | .string _, _, hm | .integer _, _, hm | .decimal _, _, hm | .boolean _, _, hm | .null, _, hm =>
    ⟨_, (silent_pure _).truncates hm _⟩
  | .variable _ name, _, hm => ⟨_, (silent_lookupVariable name).truncates hm _⟩
  | .externalCall _ _ _, _, hm => ⟨_, (silent_throw _).truncates hm _⟩
  | .call id name args, m, hm => by
    cases hb : isBuiltin name with
    | false =>
      rw [Expr.eval_call hb]
      obtain ⟨new, hn⟩ := hi id name m hm
      exact ⟨new, hn.mono fun _ _ => .call hb⟩
    | true =>
      obtain ⟨b, hb'⟩ := Option.isSome_iff_exists.1 hb
      rw [Expr.eval, hb']
      obtain ⟨new, hn⟩ := Expr.exists_truncatesAll hi args m hm
      refine (hn.mono fun _ _ => .argument hb).bind fun values m₁ hv hm₁ => ?_
      cases hw : b.written? values with
      | none => exact ⟨_, (Builtin.silent_run hw).truncates hm₁ _⟩
      | some text =>
        rw [Builtin.run_of_written hw]
        exact (truncates_writeOutput hm₁ (.builtin hb' hv hw)).bind fun _ m₂ _ hm₂ =>
          ⟨_, (silent_pure _).truncates hm₂ _⟩
  | .binary op left right, m, hm => by
    rw [Expr.eval_binary]
    split
    next ho =>
      split
      next =>
        obtain ⟨new, hn⟩ := Expr.exists_truncates hi right m hm
        exact (hn.mono fun _ _ => .assigned ho).bind fun value m₁ _ hm₁ =>
          ⟨_, (silent_assignVariable op _ value).truncates hm₁ _⟩
      next => exact ⟨_, (silent_throw _).truncates hm _⟩
    next ho =>
      have ho : op.isAssignment = false := (Bool.not_eq_true _).mp ho
      obtain ⟨new, hn⟩ := Expr.exists_truncates hi left m hm
      refine (hn.mono fun _ _ => .left ho).bind fun l m₁ hl hm₁ => ?_
      obtain ⟨new', hn'⟩ := Expr.exists_truncates hi right m₁ hm₁
      exact (hn'.mono fun _ _ => .right ho hl).bind fun r m₂ _ hm₂ =>
        ⟨_, (silent_ofExcept _).truncates hm₂ _⟩

theorem Expr.exists_truncatesAll
    (hi : ∀ id name m, m.output.room = none →
      ∃ new, (invoke id name).Truncates m (within id name m) new) :
    ∀ (es : List Expr) (m : Machine), m.output.room = none →
      ∃ new, (Expr.evalAll shell invoke es).Truncates m (Expr.WritesAll shell invoke within es m) new
  | [], _, hm => ⟨_, (silent_pure _).truncates hm _⟩
  | e :: es, m, hm => by
    rw [Expr.evalAll]
    obtain ⟨new, hn⟩ := Expr.exists_truncates hi e m hm
    refine (hn.mono fun _ _ => .head).bind fun value m₁ he hm₁ => ?_
    obtain ⟨new', hn'⟩ := Expr.exists_truncatesAll hi es m₁ hm₁
    exact (hn'.mono fun _ _ => .tail he).bind fun values m₂ _ hm₂ =>
      ⟨_, (silent_pure _).truncates hm₂ _⟩

end

theorem Statement.exists_truncates
    (hi : ∀ id name m, m.output.room = none →
      ∃ new, (invoke id name).Truncates m (within id name m) new)
    (s : Statement) (m : Machine) (hm : m.output.room = none) :
    ∃ new, (s.eval shell invoke).Truncates m (s.Writes shell invoke within m) new := by
  cases s with
  | importFile => exact ⟨_, (silent_pure _).truncates hm _⟩
  | function => exact ⟨_, (silent_pure _).truncates hm _⟩
  | «variable» name _ init =>
    cases init with
    | none => exact ⟨_, (silent_pure _).truncates hm _⟩
    | some e =>
      rw [Statement.eval]
      obtain ⟨new, hn⟩ := Expr.exists_truncates hi e m hm
      refine (hn.mono fun _ _ => .init).bind fun value m₁ _ hm₁ => ?_
      exact ⟨_, ((silent_setVariable name value).bind fun _ => silent_pure value).truncates hm₁ _⟩
  | expression e =>
    obtain ⟨new, hn⟩ := Expr.exists_truncates hi e m hm
    exact ⟨new, hn.mono fun _ _ => .expression⟩

theorem Statement.exists_truncatesAll
    (hi : ∀ id name m, m.output.room = none →
      ∃ new, (invoke id name).Truncates m (within id name m) new)
    (ss : List Statement) (m : Machine) (hm : m.output.room = none) :
    ∃ new, (Statement.evalAll shell invoke ss).Truncates m
      (Statement.WritesAll shell invoke within ss m) new := by
  unfold Statement.evalAll
  generalize Value.nil = value
  induction ss generalizing value m with
  | nil => exact ⟨_, (silent_pure value).truncates hm _⟩
  | cons s ss ih =>
    rw [List.foldlM_cons]
    obtain ⟨new, hn⟩ := Statement.exists_truncates hi s m hm
    refine (hn.mono fun _ _ => .head).bind fun value m₁ hs hm₁ => ?_
    obtain ⟨new', hn'⟩ := ih m₁ hm₁ value
    exact ⟨new', hn'.mono fun _ _ => .tail hs⟩

end Evaluation

theorem Resolution.exists_truncates_invoke (r : Resolution) (shell : Shell) (calls : Nat)
    (id : NodeId) (name : String) (m : Machine) (hm : m.output.room = none) :
    ∃ new, (r.invoke shell calls id name).Truncates m (r.Writes shell calls id name m) new := by
  induction calls generalizing id name m with
  | zero =>
    unfold Resolution.invoke
    split
    · exact ⟨_, (Eval.silent_throw _).truncates hm _⟩
    · exact ⟨_, (Eval.silent_throw _).truncates hm _⟩
  | succ calls ih =>
    unfold Resolution.invoke
    split
    next => exact ⟨_, (Eval.silent_throw _).truncates hm _⟩
    next body hb =>
      obtain ⟨new, hn⟩ := Statement.exists_truncatesAll ih body m hm
      exact ⟨new, hn.mono fun _ _ hw => ⟨body, hb, hw⟩⟩

/-- A limit to the output only cuts a run off. -/
theorem run_limited (p : Program) (shell : Shell) (r : Resolution) (env : Environment) (n : Nat) :
    let start : Machine := { environment := env }
    let free := p.run shell r start
    let held := p.run shell r (start.limited n)
    if free.2.output.bytes.size ≤ n then
      held.1 = free.1 ∧ held.2.environment = free.2.environment ∧
        held.2.output.bytes = free.2.output.bytes
    else
      held.1 = .error .outputFull ∧ held.2.output.bytes = free.2.output.bytes.extract 0 n ∧
        ∃ text m, p.Writes shell r start text m ∧ m.output.bytes.size ≤ n ∧
          n < (m.output.bytes ++ text.toUTF8).size ∧ held.2.environment = m.environment := by
  intro start free held
  obtain ⟨new, -, hbytes, hfits, hrefused⟩ :=
    Statement.exists_truncatesAll (r.exists_truncates_invoke shell maxCallDepth) p.statements start
      rfl
  have hnew : free.2.output.bytes = new := hbytes.trans ByteArray.empty_append
  split
  next h =>
    have hheld : held = (free.1, free.2.limited (n - new.size)) := hfits n (hnew ▸ h)
    rw [hheld]
    exact ⟨rfl, rfl, rfl⟩
  next h =>
    obtain ⟨text, m, hw, hle, hlt, hrun⟩ := hrefused n (hnew ▸ Nat.lt_of_not_le h)
    have hheld : held = (.error .outputFull, ⟨m.environment, ⟨new.extract 0 n, some 0⟩⟩) := by
      rw [← ByteArray.empty_append (b := new.extract 0 n)]
      exact hrun
    rw [hheld, hnew]
    have hstart : start.output.bytes.size = 0 := rfl
    exact ⟨rfl, rfl, text, m, hw, by omega, by omega, rfl⟩

end FlatScript
