import FlatScript.Proofs.Correspondence
import FlatScript.Proofs.Truncation

namespace FlatScript

namespace Operator

/-- The type of the result on operands of two types. -/
def resultType (op : Operator) : ValueType → ValueType → Except RuntimeError ValueType
  | .int, .int =>
    match op with
    | .add | .subtract | .multiply | .divide | .modulo | .bitAnd | .bitOr | .bitXor | .shiftLeft
    | .shiftRight => .ok .int
    | .equal | .notEqual | .greater | .greaterEqual | .less | .lessEqual => .ok .bool
    | _ => .error (.unsupportedOperation op .int .int)
  | .float, .float =>
    match op with
    | .add | .subtract | .multiply | .divide => .ok .float
    | .equal | .notEqual | .greater | .greaterEqual | .less | .lessEqual => .ok .bool
    | _ => .error (.unsupportedOperation op .float .float)
  | .string, .string =>
    match op with
    | .add => .ok .string
    | .equal | .notEqual => .ok .bool
    | _ => .error (.unsupportedOperation op .string .string)
  | .bool, .bool =>
    match op with
    | .and | .or | .equal | .notEqual => .ok .bool
    | _ => .error (.unsupportedOperation op .bool .bool)
  | .string, .int =>
    if op = .add then .ok .string else .error (.unsupportedOperation op .string .int)
  | l, r => .error (.unsupportedOperation op l r)

theorem applyInt_type (op : Operator) (l r : Int64) :
    op.applyInt l r = .error .divisionByZero ∨
      (op.applyInt l r).map Value.type = op.resultType .int .int := by
  cases op with
  | divide | modulo =>
    by_cases hr : r = 0
    · exact .inl (if_pos hr)
    · rw [applyInt, if_neg hr]
      exact .inr rfl
  | _ => exact .inr rfl

theorem applyFloat_type (op : Operator) (l r : Float32) :
    (op.applyFloat l r).map Value.type = op.resultType .float .float := by
  cases op
  all_goals rfl

theorem applyString_type (op : Operator) (l r : String) :
    (op.applyString l r).map Value.type = op.resultType .string .string := by
  cases op
  all_goals rfl

theorem applyBool_type (op : Operator) (l r : Bool) :
    (op.applyBool l r).map Value.type = op.resultType .bool .bool := by
  cases op
  all_goals rfl

theorem apply_type (op : Operator) (l r : Value) :
    op.apply l r = .error .divisionByZero ∨
      (op.apply l r).map Value.type = op.resultType l.type r.type := by
  cases l with
  | int l =>
    cases r with
    | int r => exact op.applyInt_type l r
    | _ => exact .inr rfl
  | float l =>
    cases r with
    | float r => exact .inr (op.applyFloat_type l r)
    | _ => exact .inr rfl
  | string l =>
    cases r with
    | string r => exact .inr (op.applyString_type l r)
    | int r =>
      refine .inr ?_
      rw [apply]
      by_cases ho : op = .add
      · rw [if_pos ho]
        exact (if_pos ho).symm
      · rw [if_neg ho]
        exact (if_neg ho).symm
    | _ => exact .inr rfl
  | bool l =>
    cases r with
    | bool r => exact .inr (op.applyBool_type l r)
    | _ => exact .inr rfl
  | nil | error l => exact .inr rfl

end Operator

/-- Every name has a value of the same type in both environments; unset names are nil. -/
def Environment.SameTypes (env env' : Environment) : Prop :=
  ∀ name, (env.get name).type = (env'.get name).type

theorem Environment.SameTypes.set {env env' : Environment} (h : env.SameTypes env')
    (name : String) {v v' : Value} (hv : v.type = v'.type) :
    (env.set name v).SameTypes (env'.set name v') := by
  intro other
  by_cases ho : other = name
  · rw [ho, Environment.get_set, Environment.get_set, hv]
  · rw [Environment.get_set_ne _ ho, Environment.get_set_ne _ ho, h other]

/-- The machines have environments of the same types, and outputs without a limit. -/
structure Machine.SameTypes (m m' : Machine) : Prop where
  environment : m.environment.SameTypes m'.environment
  room : m.output.room = none
  room' : m'.output.room = none

section

variable {exempt : RuntimeError → Prop} {shell shell' : Shell}

open Eval

theorem relates_lookupVariable_sameTypes (name : String) :
    Relates Machine.SameTypes exempt (fun v v' => v.type = v'.type) (lookupVariable name)
      (lookupVariable name) :=
  fun _ _ hm => .ok (hm.environment name) hm

theorem relates_setVariable_sameTypes (name : String) {v v' : Value} (hv : v.type = v'.type) :
    Relates Machine.SameTypes exempt Eq (setVariable name v) (setVariable name v') :=
  fun _ _ hm => .ok rfl ⟨hm.environment.set name hv, hm.room, hm.room'⟩

theorem relates_apply_sameTypes (op : Operator) {l l' r r' : Value} (hl : l.type = l'.type)
    (hr : r.type = r'.type) :
    Relates Machine.SameTypes (· = .divisionByZero) (fun v v' => v.type = v'.type)
      (liftM (op.apply l r)) (liftM (op.apply l' r')) := by
  intro m m' hm
  change Meet _ _ _ (op.apply l r, m) (op.apply l' r', m')
  rcases op.apply_type l r with h | h
  · rw [h]
    exact .left rfl
  rcases op.apply_type l' r' with h' | h'
  · rw [h']
    exact .right rfl
  rw [← hl, ← hr, ← h] at h'
  generalize op.apply l r = x, op.apply l' r' = y at h'
  cases x with
  | ok v =>
    cases y with
    | ok v' => exact .ok (Except.ok.inj h').symm hm
    | error e => cases h'
  | error e =>
    cases y with
    | ok v' => cases h'
    | error e' =>
      obtain rfl := Except.error.inj h'
      exact .error hm

theorem relates_writeOutput_sameTypes (text text' : String) :
    Relates Machine.SameTypes exempt Eq (writeOutput text) (writeOutput text') := by
  intro m m' hm
  obtain ⟨env, bytes, room⟩ := m
  obtain ⟨env', bytes', room'⟩ := m'
  obtain rfl : room = none := hm.room
  obtain rfl : room' = none := hm.room'
  rw [run_writeOutput, run_writeOutput]
  exact .ok rfl ⟨hm.environment, rfl, rfl⟩

theorem Builtin.exists_written {b : Builtin} (hb : b ≠ .exec) (vs : List Value) :
    ∃ text, b.written? vs = some text := by
  cases b with
  | print => exact ⟨_, rfl⟩
  | printf =>
    cases vs with
    | nil => exact ⟨_, rfl⟩
    | cons => exact ⟨_, rfl⟩
  | exec => exact absurd rfl hb

theorem relates_builtin_sameTypes {b : Builtin} (hb : b ≠ .exec) (vs vs' : List Value) :
    Relates Machine.SameTypes exempt (fun v v' => v.type = v'.type) (b.run shell vs)
      (b.run shell' vs') := by
  obtain ⟨text, ht⟩ := b.exists_written hb vs
  obtain ⟨text', ht'⟩ := b.exists_written hb vs'
  rw [Builtin.run_of_written ht, Builtin.run_of_written ht']
  exact (relates_writeOutput_sameTypes text text').bind fun _ _ _ => relates_pure rfl

end

def Correspondence.sameTypes (shell shell' : Shell) : Correspondence shell shell' where
  machine := Machine.SameTypes
  value v v' := v.type = v'.type
  exempt e := e = .divisionByZero
  runs b := b ≠ .exec
  refl _ := rfl
  type_eq h := h
  lookup := relates_lookupVariable_sameTypes
  set name _ _ h := relates_setVariable_sameTypes name h
  apply op _ _ _ _ hl hr := relates_apply_sameTypes op hl hr
  builtin hb _ _ _ := relates_builtin_sameTypes hb _ _

def Statement.CallsNoExec (ss : List Statement) : Prop :=
  ∀ m ∈ Statement.mentionsAll ss, m.role = .call → m.name ≠ "exec"

instance : DecidablePred Statement.CallsNoExec := fun ss =>
  inferInstanceAs (Decidable (∀ m ∈ Statement.mentionsAll ss, m.role = .call → m.name ≠ "exec"))

theorem Statement.CallsNoExec.permits {ss : List Statement} (h : Statement.CallsNoExec ss)
    {shell shell' : Shell} :
    (Correspondence.sameTypes shell shell').Permits (Statement.mentionsAll ss) := by
  intro m hm hc b hb he
  have hn := Builtin.name_of_ofName hb
  rw [he] at hn
  exact h m hm hc hn.symm

/-- Two runs of a program that calls no `exec`, from environments of the same types and with outputs
without a limit, both end in values of the same type, or both in the same failure, and the
environments have the same types again, if neither run divides by zero. -/
theorem run_sameTypes {p : Program} {r : Resolution} {m m' : Machine} (shell shell' : Shell)
    (hp : Statement.CallsNoExec p.statements)
    (hr : ∀ id body, r.functionFor? id = some body → Statement.CallsNoExec body)
    (hm : m.output.room = none) (hm' : m'.output.room = none)
    (he : m.environment.SameTypes m'.environment)
    (hd : (p.run shell r m).1 ≠ .error .divisionByZero)
    (hd' : (p.run shell' r m').1 ≠ .error .divisionByZero) :
    ((∃ v v', (p.run shell r m).1 = .ok v ∧ (p.run shell' r m').1 = .ok v' ∧ v.type = v'.type) ∨
      ∃ e, (p.run shell r m).1 = .error e ∧ (p.run shell' r m').1 = .error e) ∧
    (p.run shell r m).2.environment.SameTypes (p.run shell' r m').2.environment := by
  have hsame : (Correspondence.sameTypes shell shell').machine m m' := ⟨he, hm, hm'⟩
  have h := Correspondence.relates_run (fun id body hb => (hr id body hb).permits) hp.permits hsame
  generalize p.run shell r m = x, p.run shell' r m' = y at h hd hd'
  cases h with
  | ok hv hm => exact ⟨.inl ⟨_, _, rfl, rfl, hv⟩, hm.environment⟩
  | error hm => exact ⟨.inr ⟨_, rfl, rfl⟩, hm.environment⟩
  | left he => exact absurd (congrArg Except.error he) hd
  | right he => exact absurd (congrArg Except.error he) hd'

def counting : Program :=
  ⟨[.function "f" [.expression (.binary .addAssign (.variable 0 "x") (.integer 1))],
    .expression (.call 1 "f" [])]⟩

def countingLinks : Resolution :=
  ⟨⟨[⟨"f", .function [.expression (.binary .addAssign (.variable 0 "x") (.integer 1))]⟩]⟩, [(1, 0)]⟩

def countingFrom (n : Int64) : Machine :=
  { environment := .set ⟨[], List.nodup_nil⟩ "x" (.int n) }

theorem callsNoExec_of_countingLinks {id : NodeId} {body : List Statement}
    (h : countingLinks.functionFor? id = some body) : Statement.CallsNoExec body := by
  by_cases hi : id = 1
  · subst hi
    obtain rfl := Option.some.inj h
    decide
  · have hi : 1 ≠ id := fun he => hi he.symm
    simp [Resolution.functionFor?, Resolution.symbolFor?, countingLinks, Links.get?, hi] at h

theorem sameTypes_countingFrom (n k : Int64) :
    (countingFrom n).environment.SameTypes (countingFrom k).environment :=
  Environment.SameTypes.set (fun _ => rfl) "x" rfl

theorem run_sameTypes_counting :
    (∃ v v', (counting.run (fun _ => .ok {}) countingLinks (countingFrom 1)).1 = .ok v ∧
      (counting.run (fun _ => .ok {}) countingLinks (countingFrom 41)).1 = .ok v' ∧
      v.type = v'.type) ∧
    (counting.run (fun _ => .ok {}) countingLinks (countingFrom 1)).2.environment.SameTypes
      (counting.run (fun _ => .ok {}) countingLinks (countingFrom 41)).2.environment := by
  have h1 : (counting.run (fun _ => .ok {}) countingLinks (countingFrom 1)).1 = .ok (.int 2) := rfl
  have h41 : (counting.run (fun _ => .ok {}) countingLinks (countingFrom 41)).1 = .ok (.int 42) :=
    rfl
  have h := run_sameTypes (fun _ => .ok {}) (fun _ => .ok {}) (p := counting) (by decide)
    (fun _ _ => callsNoExec_of_countingLinks) rfl rfl (sameTypes_countingFrom 1 41)
    (by rw [h1]; simp) (by rw [h41]; simp)
  exact ⟨⟨_, _, h1, h41, rfl⟩, h.2⟩

end FlatScript
