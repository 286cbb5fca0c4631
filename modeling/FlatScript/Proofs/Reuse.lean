import Mathlib.Logic.Relation
import FlatScript.Proofs.CallChain
import FlatScript.Proofs.Counting

namespace FlatScript

inductive Work
  | expr (e : Expr)
  | exprs (es : List Expr)
  | statement (s : Statement)
  | statements (ss : List Statement)

/-- An interpreter that is to begin a work. -/
structure Stage where
  work : Work
  interpreter : Interpreter

section

variable (shell : Shell) (r : Resolution)

/-- In the course of the first work the interpreter begins the second one. -/
inductive Stage.Begins : Stage → Stage → Prop
  | arguments {id : NodeId} {name : String} {args : List Expr} {i : Interpreter}
      (hb : isBuiltin name = true) : Stage.Begins ⟨.expr (.call id name args), i⟩ ⟨.exprs args, i⟩
  | body {id : NodeId} {name : String} {args : List Expr} {body : List Statement}
      {i i' : Interpreter} (hb : isBuiltin name = false)
      (h : r.enter id name i = some (.ok body, i')) :
      Stage.Begins ⟨.expr (.call id name args), i⟩ ⟨.statements body, i'⟩
  | assigned {op : Operator} {id : NodeId} {name : String} {right : Expr} {i : Interpreter}
      (ho : op.isAssignment = true) :
      Stage.Begins ⟨.expr (.binary op (.variable id name) right), i⟩ ⟨.expr right, i⟩
  | left {op : Operator} {left right : Expr} {i : Interpreter} (ho : op.isAssignment = false) :
      Stage.Begins ⟨.expr (.binary op left right), i⟩ ⟨.expr left, i⟩
  | right {op : Operator} {left right : Expr} {value : Value} {i i' : Interpreter}
      (ho : op.isAssignment = false) (h : left.evalCounting shell r i = some (.ok value, i')) :
      Stage.Begins ⟨.expr (.binary op left right), i⟩ ⟨.expr right, i'⟩
  | firstExpr {e : Expr} {es : List Expr} {i : Interpreter} :
      Stage.Begins ⟨.exprs (e :: es), i⟩ ⟨.expr e, i⟩
  | laterExprs {e : Expr} {es : List Expr} {value : Value} {i i' : Interpreter}
      (h : e.evalCounting shell r i = some (.ok value, i')) :
      Stage.Begins ⟨.exprs (e :: es), i⟩ ⟨.exprs es, i'⟩
  | init {name typeName : String} {e : Expr} {i : Interpreter} :
      Stage.Begins ⟨.statement (.variable name typeName (some e)), i⟩ ⟨.expr e, i⟩
  | expression {e : Expr} {i : Interpreter} :
      Stage.Begins ⟨.statement (.expression e), i⟩ ⟨.expr e, i⟩
  | firstStatement {s : Statement} {ss : List Statement} {i : Interpreter} :
      Stage.Begins ⟨.statements (s :: ss), i⟩ ⟨.statement s, i⟩
  | laterStatements {s : Statement} {ss : List Statement} {value : Value} {i i' : Interpreter}
      (h : s.evalCounting shell r i = some (.ok value, i')) :
      Stage.Begins ⟨.statements (s :: ss), i⟩ ⟨.statements ss, i'⟩

/-- Runs a program on an interpreter. -/
def Program.runCounting (p : Program) : Counting Value :=
  Statement.evalAllCounting shell r p.statements

/-- Runs programs on an interpreter, one after the other, also behind errors, and lists how the runs
have ended. Between two runs the interpreter is changed by `renew`. -/
def Interpreter.runAll (renew : Interpreter → Interpreter) (i : Interpreter) :
    List Program → Option (List (Except RuntimeError Value × Interpreter))
  | [] => some []
  | p :: ps => do
    let (result, i) ← p.runCounting shell r i
    let later ← (renew i).runAll renew ps
    return (result, i) :: later

end

def Interpreter.renewed (i : Interpreter) : Interpreter := { machine := i.machine }

open Counting

variable {shell : Shell} {r : Resolution}

theorem Counting.Performs.exists_eq {α : Type} {d : Nat} {x : Counting α} {y : Eval α}
    (h : Performs d x y) {i : Interpreter} (hi : i.depth = d) :
    ∃ result i', x i = some (result, i') ∧ i'.depth = i.depth := by
  obtain ⟨m, _⟩ := i
  obtain rfl : _ = d := hi
  exact ⟨_, _, h m, rfl⟩

theorem Expr.exists_evalCounting (e : Expr) {i : Interpreter} (h : i.depth ≤ maxCallDepth) :
    ∃ result i', e.evalCounting shell r i = some (result, i') ∧ i'.depth = i.depth :=
  (Expr.performs_evalBy (Resolution.performs_invoke (Nat.add_sub_of_le h)) e).exists_eq rfl

theorem Statement.exists_evalCounting (s : Statement) {i : Interpreter}
    (h : i.depth ≤ maxCallDepth) :
    ∃ result i', s.evalCounting shell r i = some (result, i') ∧ i'.depth = i.depth :=
  (Statement.performs_evalBy (Resolution.performs_invoke (Nat.add_sub_of_le h)) s).exists_eq rfl

namespace Stage

variable {a b : Stage}

theorem Begins.depth_le (h : Begins shell r a b) (ha : a.interpreter.depth ≤ maxCallDepth) :
    b.interpreter.depth ≤ maxCallDepth := by
  -- Only a call changes the counter, and it is let in below the limit; what is begun behind an
  -- expression or a statement finds the counter that this found.
  cases h with
  | body _ h =>
    obtain ⟨hlt, hd⟩ := Resolution.depth_of_enter h
    exact hd ▸ hlt
  | right _ h | laterExprs h =>
    obtain ⟨_, _, he, hd⟩ := Expr.exists_evalCounting _ ha
    obtain ⟨-, rfl⟩ := Prod.mk.inj (Option.some.inj (he.symm.trans h))
    exact hd ▸ ha
  | laterStatements h =>
    obtain ⟨_, _, hs, hd⟩ := Statement.exists_evalCounting _ ha
    obtain ⟨-, rfl⟩ := Prod.mk.inj (Option.some.inj (hs.symm.trans h))
    exact hd ▸ ha
  | _ => exact ha

theorem depth_le_of_reflTransGen (h : Relation.ReflTransGen (Begins shell r) a b)
    (ha : a.interpreter.depth ≤ maxCallDepth) : b.interpreter.depth ≤ maxCallDepth := by
  induction h with
  | refl => exact ha
  | tail _ h ih => exact h.depth_le ih

end Stage

theorem Program.runCounting_eq (p : Program) (shell : Shell) (r : Resolution) (m : Machine) :
    p.runCounting shell r { machine := m } =
      some ((p.run shell r m).1, { machine := (p.run shell r m).2 }) :=
  Statement.performs_evalAllBy (Resolution.performs_invoke (Nat.zero_add _)) p.statements m

theorem Interpreter.exists_runAll (ps : List Program) (m : Machine) :
    ∃ ends, runAll shell r id { machine := m } ps = some ends ∧
      runAll shell r renewed { machine := m } ps = some ends ∧ ∀ e ∈ ends, e.2.depth = 0 := by
  induction ps generalizing m with
  | nil => exact ⟨[], rfl, rfl, by simp⟩
  | cons p ps ih =>
    obtain ⟨ends, hi, hr, hd⟩ := ih (p.run shell r m).2
    have hp := p.runCounting_eq shell r m
    refine ⟨((p.run shell r m).1, { machine := (p.run shell r m).2 }) :: ends, ?_, ?_, ?_⟩
    · simp [runAll, hp, hi]
    · simp [runAll, hp, hr, renewed]
    · exact List.forall_mem_cons.2 ⟨rfl, hd⟩

/-- An interpreter can be used again whatever a run has ended in: behind each of any programs that
it runs no call is active, and each ends as it would on a new interpreter around the machine that
the one before it has left, which is as the program ends when it is run there alone. In the course
of a run the counter is never above 128, and every expression that is evaluated leaves it as it was,
whether that ends in a value or in an error. -/
theorem runs_renewable (shell : Shell) (r : Resolution) :
    (∀ ps m, ∃ ends, Interpreter.runAll shell r id { machine := m } ps = some ends ∧
      Interpreter.runAll shell r Interpreter.renewed { machine := m } ps = some ends ∧
      ∀ e ∈ ends, e.2.depth = 0) ∧
    (∀ (p : Program) m, p.runCounting shell r { machine := m } =
      some ((p.run shell r m).1, { machine := (p.run shell r m).2 })) ∧
    ∀ (p : Program) m e i, Relation.ReflTransGen (Stage.Begins shell r)
      ⟨.statements p.statements, { machine := m }⟩ ⟨.expr e, i⟩ →
        i.depth ≤ 128 ∧
          ∃ result i', e.evalCounting shell r i = some (result, i') ∧ i'.depth = i.depth := by
  refine ⟨fun ps m => Interpreter.exists_runAll ps m, fun p m => p.runCounting_eq shell r m,
    fun p m e i h => ?_⟩
  have hi : i.depth ≤ maxCallDepth := Stage.depth_le_of_reflTransGen h (Nat.zero_le _)
  exact ⟨hi, e.exists_evalCounting hi⟩

theorem runs_renewable_selfCall :
    ∃ i, Relation.ReflTransGen (Stage.Begins (fun _ => .ok {}) selfCallLinks)
        ⟨.statements [.expression (.call 1 "f" [])], {}⟩ ⟨.expr (.call 0 "f" []), i⟩ ∧
      i.depth = 1 ∧ i.depth ≤ 128 ∧
      ∃ result i', (Expr.call 0 "f" []).evalCounting (fun _ => .ok {}) selfCallLinks i =
        some (result, i') ∧ i'.depth = i.depth := by
  have hb : Relation.ReflTransGen (Stage.Begins (fun _ => .ok {}) selfCallLinks)
      ⟨.statements [.expression (.call 1 "f" [])], {}⟩ ⟨.expr (.call 0 "f" []), { depth := 1 }⟩ :=
    .head .firstStatement (.head .expression (.head (.body rfl rfl)
      (.head .firstStatement (.single .expression))))
  exact ⟨_, hb, rfl,
    (runs_renewable (fun _ => .ok {}) selfCallLinks).2.2 ⟨[.expression (.call 1 "f" [])]⟩ {} _ _ hb⟩

end FlatScript
