import FlatScript.Proofs.Evaluated

namespace FlatScript

/-- A machine, and the number of calls of declared functions that are active. -/
structure Interpreter where
  machine : Machine := {}
  depth : Nat := 0

/-- Steps that change an interpreter and end in a result or an error, if they end at all; an error
keeps the changes. -/
abbrev Counting := ExceptT RuntimeError (StateT Interpreter Option)

def Counting.ofEval {α : Type} (x : Eval α) : Counting α := fun i =>
  some ((x.run i.machine).1, { i with machine := (x.run i.machine).2 })

/-- Begins a call: finds the body, and counts the call if there may be one more. -/
def Resolution.enter (r : Resolution) (id : NodeId) (name : String) : Counting (List Statement) :=
  fun i =>
    match r.functionFor? id with
    | none => some (.error (.unresolvedCall name), i)
    | some body =>
      if maxCallDepth ≤ i.depth then some (.error (.callDepthExceeded name maxCallDepth), i)
      else some (.ok body, { i with depth := i.depth + 1 })

def Interpreter.leave (i : Interpreter) : Interpreter := { i with depth := i.depth - 1 }

section

variable (shell : Shell) (invoke : NodeId → String → Counting Value)

mutual

/-- Evaluates an expression; `invoke` runs the calls of declared functions. -/
def Expr.evalBy : Expr → Counting Value
  | .string s => return .string s
  | .integer n => return .int n
  | .decimal x => return .float x
  | .boolean b => return .bool b
  | .null => return .nil
  | .variable _ name => .ofEval (lookupVariable name)
  | .call id name args =>
    match Builtin.ofName? name with
    | some builtin => do
      let values ← Expr.evalAllBy args
      .ofEval (builtin.run shell values)
    | none => invoke id name
  | .externalCall module function _ => throw (.externalCall module function)
  | .binary op left right =>
    if op.isAssignment then
      match left with
      | .variable _ name => do
        let value ← right.evalBy
        .ofEval (assignVariable op name value)
      | _ => throw (.invalidAssignmentTarget op)
    else do
      let l ← left.evalBy
      let r ← right.evalBy
      .ofEval (op.apply l r)

def Expr.evalAllBy : List Expr → Counting (List Value)
  | [] => return []
  | e :: es => do
    let value ← e.evalBy
    let values ← Expr.evalAllBy es
    return value :: values

end

def Statement.evalBy : Statement → Counting Value
  | .variable name _ (some e) => do
    let value ← e.evalBy shell invoke
    .ofEval (setVariable name value)
    return value
  | .expression e => e.evalBy shell invoke
  | .importFile _ | .function _ _ | .variable _ _ none => return .nil

def Statement.evalAllBy (statements : List Statement) : Counting Value :=
  statements.foldlM (fun _ s => s.evalBy shell invoke) .nil

end

section

variable (shell : Shell) (r : Resolution)

def Resolution.callBody (call : NodeId → String → Counting Value) (id : NodeId) (name : String) :
    Counting Value := do
  let body ← r.enter id name
  -- The body is run to whatever it ends in, an error too, before the call is counted off.
  show StateT Interpreter Option (Except RuntimeError Value) from do
    let result ← (Statement.evalAllBy shell call body).run
    modify Interpreter.leave
    return result

/-- Calls a function where calls nest at most `frames` deep; what nests deeper does not end. -/
def Resolution.invokeWithin : Nat → NodeId → String → Counting Value
  | 0 => fun _ _ _ => none
  | frames + 1 => r.callBody shell (Resolution.invokeWithin frames)

/-- Calls a function. The counter keeps calls from nesting deeper than there are frames. -/
def Resolution.invokeCounting : NodeId → String → Counting Value :=
  r.invokeWithin shell (maxCallDepth + 1)

def Expr.evalCounting (e : Expr) : Counting Value := e.evalBy shell (r.invokeCounting shell)

def Statement.evalCounting (s : Statement) : Counting Value := s.evalBy shell (r.invokeCounting shell)

def Statement.evalAllCounting (statements : List Statement) : Counting Value :=
  Statement.evalAllBy shell (r.invokeCounting shell) statements

end

namespace Counting

variable {α β : Type} {d : Nat} {x : Counting α} {y : Eval α} {f : α → Counting β} {g : α → Eval β}

theorem run_bind (x : Counting α) (f : α → Counting β) (i : Interpreter) :
    (x >>= f) i =
      match x i with
      | some (.ok a, i) => f a i
      | some (.error e, i) => some (.error e, i)
      | none => none := by
  change ((x i).bind fun (result, i) => ExceptT.bindCont f result i) = _
  rcases x i with _ | ⟨e | a, i⟩
  · rfl
  · rfl
  · rfl

/-- With `d` calls active, the steps come to an end; they do to the machine what `y` does, and `d`
calls are active again. -/
def Performs (d : Nat) (x : Counting α) (y : Eval α) : Prop :=
  ∀ m, x ⟨m, d⟩ = some ((y.run m).1, ⟨(y.run m).2, d⟩)

theorem performs_ofEval (y : Eval α) : Performs d (ofEval y) y := fun _ => rfl

theorem performs_pure (a : α) : Performs d (pure a) (pure a) := fun _ => rfl

theorem performs_throw (e : RuntimeError) :
    Performs d (throw e : Counting α) (throw e) := fun _ => rfl

theorem Performs.bind (hx : Performs d x y) (hf : ∀ a, Performs d (f a) (g a)) :
    Performs d (x >>= f) (y >>= g) := by
  intro m
  rw [run_bind, hx m, Eval.run_bind]
  rcases y.run m with ⟨e | a, m'⟩
  · rfl
  · exact hf a m'

theorem performs_foldlM {ι : Type} {f : ι → Counting α} {g : ι → Eval α} {is : List ι} (a : α)
    (h : ∀ i ∈ is, Performs d (f i) (g i)) :
    Performs d (is.foldlM (fun _ i => f i) a) (is.foldlM (fun _ i => g i) a) := by
  induction is generalizing a with
  | nil => exact performs_pure a
  | cons i is ih =>
    rw [List.forall_mem_cons] at h
    rw [List.foldlM_cons, List.foldlM_cons]
    exact h.1.bind fun a => ih a h.2

end Counting

section

open Counting

variable {shell : Shell} {r : Resolution} {call : NodeId → String → Counting Value}
  {invoke : NodeId → String → Eval Value} {d : Nat}

mutual

theorem Expr.performs_evalBy (hi : ∀ id name, Performs d (call id name) (invoke id name)) :
    ∀ e : Expr, Performs d (e.evalBy shell call) (e.eval shell invoke)
  | .string _ | .integer _ | .decimal _ | .boolean _ | .null => by
    rw [Expr.evalBy]
    exact performs_pure _
  | .variable _ name => by
    rw [Expr.evalBy]
    exact performs_ofEval _
  | .externalCall module function args => by
    rw [Expr.evalBy]
    exact performs_throw _
  | .call id name args => by
    rw [Expr.evalBy, Expr.eval]
    cases Builtin.ofName? name with
    | some b => exact (Expr.performs_evalAllBy hi args).bind fun values => performs_ofEval _
    | none => exact hi id name
  | .binary op left right => by
    rw [Expr.evalBy.eq_def, Expr.eval_binary]
    dsimp only
    split
    · cases left with
      | «variable» _ name =>
        exact (Expr.performs_evalBy hi right).bind fun value => performs_ofEval _
      | _ => exact performs_throw _
    · exact (Expr.performs_evalBy hi left).bind fun l =>
        (Expr.performs_evalBy hi right).bind fun r => performs_ofEval _

theorem Expr.performs_evalAllBy (hi : ∀ id name, Performs d (call id name) (invoke id name)) :
    ∀ es : List Expr, Performs d (Expr.evalAllBy shell call es) (Expr.evalAll shell invoke es)
  | [] => by
    rw [Expr.evalAllBy, Expr.evalAll]
    exact performs_pure _
  | e :: es => by
    rw [Expr.evalAllBy, Expr.evalAll]
    exact (Expr.performs_evalBy hi e).bind fun value =>
      (Expr.performs_evalAllBy hi es).bind fun values => performs_pure _

end

theorem Statement.performs_evalBy (hi : ∀ id name, Performs d (call id name) (invoke id name))
    (s : Statement) : Performs d (s.evalBy shell call) (s.eval shell invoke) := by
  cases s with
  | importFile | function => exact performs_pure _
  | «variable» name _ init =>
    cases init with
    | none => exact performs_pure _
    | some e =>
      rw [Statement.evalBy, Statement.eval]
      exact (Expr.performs_evalBy hi e).bind fun value =>
        (performs_ofEval _).bind fun _ => performs_pure value
  | expression e => exact Expr.performs_evalBy hi e

theorem Statement.performs_evalAllBy (hi : ∀ id name, Performs d (call id name) (invoke id name))
    (ss : List Statement) :
    Performs d (Statement.evalAllBy shell call ss) (Statement.evalAll shell invoke ss) := by
  rw [Statement.evalAllBy, Statement.evalAll]
  exact performs_foldlM .nil fun s _ => Statement.performs_evalBy hi s

/-- A call is refused, or it is let in below the limit and counted. -/
theorem Resolution.enter_cases (id : NodeId) (name : String) (i : Interpreter) :
    (∃ e, r.enter id name i = some (.error e, i)) ∨
      ∃ body, i.depth < maxCallDepth ∧
        r.enter id name i = some (.ok body, { i with depth := i.depth + 1 }) := by
  rw [enter]
  split
  next => exact .inl ⟨_, rfl⟩
  next body _ =>
    split
    next => exact .inl ⟨_, rfl⟩
    next hd => exact .inr ⟨body, Nat.lt_of_not_le hd, rfl⟩

theorem Resolution.depth_of_enter {id : NodeId} {name : String} {body : List Statement}
    {i i' : Interpreter} (h : r.enter id name i = some (.ok body, i')) :
    i.depth < maxCallDepth ∧ i'.depth = i.depth + 1 := by
  rcases r.enter_cases id name i with ⟨e, he⟩ | ⟨body', hd, he⟩
  · cases he.symm.trans h
  · cases he.symm.trans h
    exact ⟨hd, rfl⟩

def Resolution.callWith (r : Resolution) (run : List Statement → Counting Value) (id : NodeId)
    (name : String) : Counting Value := do
  let body ← r.enter id name
  show StateT Interpreter Option (Except RuntimeError Value) from do
    let result ← (run body).run
    modify Interpreter.leave
    return result

theorem Resolution.run_callWith {run : List Statement → Counting Value} {id : NodeId}
    {name : String} {body : List Statement} {i i' : Interpreter}
    (h : r.enter id name i = some (.ok body, i')) :
    r.callWith run id name i = (run body i').map fun (result, i) => (result, i.leave) := by
  rw [callWith, Counting.run_bind, h]
  change ((run body i').bind fun (result, i) => some (result, i.leave)) = _
  cases run body i' with
  | none => rfl
  | some _ => rfl

theorem Resolution.run_callBody {id : NodeId} {name : String} {body : List Statement}
    {i i' : Interpreter} (h : r.enter id name i = some (.ok body, i')) :
    r.callBody shell call id name i =
      (Statement.evalAllBy shell call body i').map fun (result, i) => (result, i.leave) :=
  run_callWith h

theorem Resolution.performs_invokeWithin {calls frames : Nat} (h : d + calls = maxCallDepth)
    (hf : calls < frames) (id : NodeId) (name : String) :
    Performs d (r.invokeWithin shell frames id name) (r.invoke shell calls id name) := by
  induction frames generalizing d calls id name with
  | zero => exact absurd hf (Nat.not_lt_zero _)
  | succ frames ih =>
    intro m
    rw [invokeWithin, invoke.eq_def]
    cases hb : r.functionFor? id with
    | none =>
      rw [callBody, Counting.run_bind, enter, hb]
      rfl
    | some body =>
      cases calls with
      | zero =>
        obtain rfl : d = maxCallDepth := h
        rw [callBody, Counting.run_bind, enter, hb]
        rfl
      | succ calls =>
        have hd : ¬ maxCallDepth ≤ d := by omega
        have he : r.enter id name ⟨m, d⟩ = some (.ok body, ⟨m, d + 1⟩) := by simp [enter, hb, hd]
        have hi := ih (d := d + 1) (by omega) (Nat.lt_of_succ_lt_succ hf)
        rw [run_callBody he, Statement.performs_evalAllBy hi body m]
        rfl

theorem Resolution.performs_invoke {calls : Nat} (h : d + calls = maxCallDepth) (id : NodeId)
    (name : String) :
    Performs d (r.invokeCounting shell id name) (r.invoke shell calls id name) :=
  performs_invokeWithin h (by omega) id name

theorem Resolution.invokeCounting_eq (shell : Shell) (r : Resolution) (id : NodeId)
    (name : String) :
    r.invokeCounting shell id name = r.callBody shell (r.invokeCounting shell) id name := by
  funext i
  change r.callBody shell (r.invokeWithin shell maxCallDepth) id name i = _
  cases he : r.enter id name i with
  | none => rw [callBody, callBody, Counting.run_bind, Counting.run_bind, he]
  | some ended =>
    obtain ⟨result, ⟨m, d⟩⟩ := ended
    cases result with
    | error => rw [callBody, callBody, Counting.run_bind, Counting.run_bind, he]
    | ok body =>
      obtain ⟨hlt, rfl⟩ := depth_of_enter he
      have hc := Nat.add_sub_of_le (Nat.succ_le_of_lt hlt)
      rw [run_callBody he, run_callBody he,
        Statement.performs_evalAllBy (performs_invokeWithin hc (by omega)) body m,
        Statement.performs_evalAllBy (performs_invoke hc) body m]

end

end FlatScript
