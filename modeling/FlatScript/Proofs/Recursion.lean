import Mathlib.Data.Prod.Lex
import FlatScript.Proofs.Reuse

namespace FlatScript

/-! ### Ranks -/

mutual

def Expr.size : Expr → Nat
  | .string _ | .integer _ | .decimal _ | .boolean _ | .null | .variable _ _ => 1
  | .call _ _ args | .externalCall _ _ args => Expr.sizeAll args + 1
  | .binary _ left right => left.size + right.size + 1

def Expr.sizeAll : List Expr → Nat
  | [] => 0
  | e :: es => e.size + Expr.sizeAll es + 1

end

mutual

def Statement.size : Statement → Nat
  | .importFile _ | .variable _ _ none => 1
  | .function _ body => Statement.sizeAll body + 1
  | .variable _ _ (some e) | .expression e => e.size + 1

def Statement.sizeAll : List Statement → Nat
  | [] => 0
  | s :: ss => s.size + Statement.sizeAll ss + 1

end

theorem Statement.size_lt_sizeAll {s : Statement} {ss : List Statement} (h : s ∈ ss) :
    s.size < Statement.sizeAll ss := by
  induction ss with
  | nil => simp at h
  | cons s' ss ih =>
    rw [Statement.sizeAll]
    rcases List.mem_cons.1 h with rfl | h
    · omega
    · have := ih h
      omega

def Work.size : Work → Nat
  | .expr e => e.size
  | .exprs es => Expr.sizeAll es
  | .statement s => s.size
  | .statements ss => Statement.sizeAll ss

/-- How many calls may still be made, and how much there is to do. -/
def Stage.rank (a : Stage) : Nat ×ₗ Nat :=
  toLex (maxCallDepth - a.interpreter.depth, a.work.size)

theorem Stage.rank_lt_of_size {a b : Stage} (hd : b.interpreter.depth = a.interpreter.depth)
    (hs : b.work.size < a.work.size) : b.rank < a.rank := by
  rw [rank, rank, hd]
  exact Prod.Lex.toLex_lt_toLex.2 (.inr ⟨rfl, hs⟩)

theorem Stage.rank_lt_of_calls {a b : Stage}
    (h : maxCallDepth - b.interpreter.depth < maxCallDepth - a.interpreter.depth) :
    b.rank < a.rank :=
  Prod.Lex.toLex_lt_toLex.2 (.inl h)

/-! ### The equations of an evaluator -/

/-- A way to evaluate, which need not come to an end. -/
@[ext]
structure Evaluator where
  expr : Expr → Counting Value
  exprs : List Expr → Counting (List Value)
  statement : Statement → Counting Value
  statements : List Statement → Counting Value

namespace Evaluator

section

variable (shell : Shell) (r : Resolution) (eval : Evaluator)

def stepExpr : Expr → Counting Value
  | .string s => return .string s
  | .integer n => return .int n
  | .decimal x => return .float x
  | .boolean b => return .bool b
  | .null => return .nil
  | .variable _ name => .ofEval (lookupVariable name)
  | .call id name args =>
    match Builtin.ofName? name with
    | some builtin => do
      let values ← eval.exprs args
      .ofEval (builtin.run shell values)
    | none => r.callWith eval.statements id name
  | .externalCall module function _ => throw (.externalCall module function)
  | .binary op left right =>
    if op.isAssignment then
      match left with
      | .variable _ name => do
        let value ← eval.expr right
        .ofEval (assignVariable op name value)
      | _ => throw (.invalidAssignmentTarget op)
    else do
      let l ← eval.expr left
      let r ← eval.expr right
      .ofEval (op.apply l r)

def stepExprs : List Expr → Counting (List Value)
  | [] => return []
  | e :: es => do
    let value ← eval.expr e
    let values ← eval.exprs es
    return value :: values

def stepStatement : Statement → Counting Value
  | .variable name _ (some e) => do
    let value ← eval.expr e
    .ofEval (setVariable name value)
    return value
  | .expression e => eval.expr e
  | .importFile _ | .function _ _ | .variable _ _ none => return .nil

/-- Evaluates by means of `eval`, which is asked for the parts of an expression or a statement, and
for the body of a function that is called. -/
def step : Evaluator where
  expr := stepExpr shell r eval
  exprs := stepExprs eval
  statement := stepStatement eval
  statements ss := ss.foldlM (fun _ s => eval.statement s) .nil

end

end Evaluator

/-! ### Agreement -/

namespace Counting

variable {α β : Type} {x y : Counting α} {f g : α → Counting β} {i : Interpreter}

/-- From the interpreter `i`, both ways come to an end, to the same one, with as many calls active
as before. -/
def Agree (x y : Counting α) (i : Interpreter) : Prop :=
  ∃ result i', x i = some (result, i') ∧ y i = some (result, i') ∧ i'.depth = i.depth

theorem agree_ofEval (x : Eval α) (i : Interpreter) : Agree (ofEval x) (ofEval x) i :=
  ⟨_, _, rfl, rfl, rfl⟩

theorem agree_pure (a : α) (i : Interpreter) : Agree (pure a) (pure a) i := ⟨_, _, rfl, rfl, rfl⟩

theorem agree_throw (e : RuntimeError) (i : Interpreter) :
    Agree (throw e : Counting α) (throw e) i := ⟨_, _, rfl, rfl, rfl⟩

theorem Agree.bind (hx : Agree x y i)
    (hf : ∀ a i', i'.depth = i.depth → Agree (f a) (g a) i') : Agree (x >>= f) (y >>= g) i := by
  obtain ⟨result, i', hx, hy, hd⟩ := hx
  cases result with
  | error e =>
    refine ⟨.error e, i', ?_, ?_, hd⟩
    · rw [run_bind, hx]
    · rw [run_bind, hy]
  | ok a =>
    obtain ⟨result, i'', hf, hg, hd'⟩ := hf a i' hd
    refine ⟨result, i'', ?_, ?_, hd'.trans hd⟩
    · rw [run_bind, hx]
      exact hf
    · rw [run_bind, hy]
      exact hg

theorem agree_foldlM {ι : Type} {f g : ι → Counting α} {is : List ι} (a : α)
    (h : ∀ j ∈ is, ∀ i', i'.depth = i.depth → Agree (f j) (g j) i') :
    Agree (is.foldlM (fun _ j => f j) a) (is.foldlM (fun _ j => g j) a) i := by
  induction is generalizing a i with
  | nil => exact agree_pure a i
  | cons j is ih =>
    rw [List.forall_mem_cons] at h
    rw [List.foldlM_cons, List.foldlM_cons]
    refine (h.1 i rfl).bind fun a i' hd => ih a fun k hk i'' hd' => ?_
    exact h.2 k hk i'' (hd'.trans hd)

end Counting

open Counting

theorem Resolution.agree_callWith (r : Resolution) {run run' : List Statement → Counting Value}
    {i : Interpreter} (id : NodeId) (name : String)
    (h : ∀ body i', maxCallDepth - i'.depth < maxCallDepth - i.depth →
      Agree (run body) (run' body) i') :
    Agree (r.callWith run id name) (r.callWith run' id name) i := by
  rcases r.enter_cases id name i with ⟨e, he⟩ | ⟨body, hlt, he⟩
  · refine ⟨.error e, i, ?_, ?_, rfl⟩
    · rw [callWith, Counting.run_bind, he]
    · rw [callWith, Counting.run_bind, he]
  · obtain ⟨result, i', hx, hy, hd⟩ := h body { i with depth := i.depth + 1 } (by
      change maxCallDepth - (i.depth + 1) < _
      omega)
    refine ⟨result, i'.leave, ?_, ?_, ?_⟩
    · rw [run_callWith he, hx]
      rfl
    · rw [run_callWith he, hy]
      rfl
    · rw [Interpreter.leave, hd]
      rfl

namespace Evaluator

/-- Both evaluators come to an end, the same one, at what an interpreter is to begin. -/
def AgreeAt (eval eval' : Evaluator) : Stage → Prop
  | ⟨.expr e, i⟩ => Agree (eval.expr e) (eval'.expr e) i
  | ⟨.exprs es, i⟩ => Agree (eval.exprs es) (eval'.exprs es) i
  | ⟨.statement s, i⟩ => Agree (eval.statement s) (eval'.statement s) i
  | ⟨.statements ss, i⟩ => Agree (eval.statements ss) (eval'.statements ss) i

def AgreeBelow (eval eval' : Evaluator) (a : Stage) : Prop :=
  ∀ b : Stage, b.rank < a.rank → AgreeAt eval eval' b

section

variable {shell : Shell} {r : Resolution} {eval eval' : Evaluator} {w : Work} {i i' : Interpreter}

theorem AgreeBelow.expr (h : AgreeBelow eval eval' ⟨w, i⟩) {e : Expr} (hs : e.size < w.size)
    (hd : i'.depth = i.depth) : Agree (eval.expr e) (eval'.expr e) i' :=
  h ⟨.expr e, i'⟩ (Stage.rank_lt_of_size hd hs)

theorem AgreeBelow.exprs (h : AgreeBelow eval eval' ⟨w, i⟩) {es : List Expr}
    (hs : Expr.sizeAll es < w.size) (hd : i'.depth = i.depth) :
    Agree (eval.exprs es) (eval'.exprs es) i' :=
  h ⟨.exprs es, i'⟩ (Stage.rank_lt_of_size hd hs)

theorem AgreeBelow.statement (h : AgreeBelow eval eval' ⟨w, i⟩) {s : Statement}
    (hs : s.size < w.size) (hd : i'.depth = i.depth) :
    Agree (eval.statement s) (eval'.statement s) i' :=
  h ⟨.statement s, i'⟩ (Stage.rank_lt_of_size hd hs)

theorem agree_stepCall (id : NodeId) {name : String} (args : List Expr)
    (hb : isBuiltin name = false)
    (h : ∀ b : Stage, maxCallDepth - b.interpreter.depth < maxCallDepth - i.depth →
      AgreeAt eval eval' b) :
    Agree (eval.stepExpr shell r (.call id name args)) (eval'.stepExpr shell r (.call id name args))
      i := by
  rw [stepExpr, stepExpr, isBuiltin_eq_false_iff.1 hb]
  exact r.agree_callWith id name fun body i' hd => h ⟨.statements body, i'⟩ hd

theorem agree_stepExpr {e : Expr} (h : AgreeBelow eval eval' ⟨.expr e, i⟩) :
    Agree (eval.stepExpr shell r e) (eval'.stepExpr shell r e) i := by
  match e with
  | .string _ | .integer _ | .decimal _ | .boolean _ | .null => exact agree_pure _ i
  | .variable _ name => exact agree_ofEval _ i
  | .externalCall _ _ _ => exact agree_throw _ i
  | .call id name args =>
    cases hb : isBuiltin name with
    | false => exact agree_stepCall id args hb fun b hd => h b (Stage.rank_lt_of_calls hd)
    | true =>
      obtain ⟨b, hb'⟩ := Option.isSome_iff_exists.1 hb
      have hs : Expr.sizeAll args < (Expr.call id name args).size := by simp [Expr.size]
      rw [stepExpr, stepExpr, hb']
      exact (h.exprs hs rfl).bind fun values i' _ => agree_ofEval _ i'
  | .binary op left right =>
    have hl : left.size < (Expr.binary op left right).size := by
      rw [Expr.size]
      omega
    have hr : right.size < (Expr.binary op left right).size := by
      rw [Expr.size]
      omega
    rw [stepExpr.eq_def, stepExpr.eq_def]
    dsimp only
    split
    · split
      · exact (h.expr hr rfl).bind fun value i' _ => agree_ofEval _ i'
      · exact agree_throw _ i
    · exact (h.expr hl rfl).bind fun l i' hd => (h.expr hr hd).bind fun r i'' _ =>
        agree_ofEval _ i''

theorem agree_stepExprs {es : List Expr} (h : AgreeBelow eval eval' ⟨.exprs es, i⟩) :
    Agree (eval.stepExprs es) (eval'.stepExprs es) i := by
  cases es with
  | nil => exact agree_pure [] i
  | cons e es =>
    have he : e.size < Expr.sizeAll (e :: es) := by
      rw [Expr.sizeAll]
      omega
    have hes : Expr.sizeAll es < Expr.sizeAll (e :: es) := by
      rw [Expr.sizeAll]
      omega
    rw [stepExprs, stepExprs]
    exact (h.expr he rfl).bind fun value i' hd => (h.exprs hes hd).bind fun values i'' _ =>
      agree_pure _ i''

theorem agree_stepStatement {s : Statement} (h : AgreeBelow eval eval' ⟨.statement s, i⟩) :
    Agree (eval.stepStatement s) (eval'.stepStatement s) i := by
  match s with
  | .importFile _ | .function _ _ | .variable _ _ none => exact agree_pure _ i
  | .variable name typeName (some e) =>
    rw [stepStatement, stepStatement]
    exact (h.expr (Nat.lt_succ_self _) rfl).bind fun value i' _ =>
      (agree_ofEval _ i').bind fun _ i'' _ => agree_pure value i''
  | .expression e => exact h.expr (Nat.lt_succ_self _) rfl

/-- What comes of one step hangs on what the evaluator does at stages of lower rank only; if it
comes to an end at all of them, so does the step. -/
theorem agreeAt_step {a : Stage} (h : AgreeBelow eval eval' a) :
    AgreeAt (eval.step shell r) (eval'.step shell r) a := by
  obtain ⟨w, i⟩ := a
  cases w with
  | expr e => exact agree_stepExpr h
  | exprs es => exact agree_stepExprs h
  | statement s => exact agree_stepStatement h
  | statements ss =>
    exact agree_foldlM Value.nil fun s hs i' hd => h.statement (Statement.size_lt_sizeAll hs) hd

theorem agreeAt_of_step_eq (h : eval.step shell r = eval) (h' : eval'.step shell r = eval')
    (a : Stage) : AgreeAt eval eval' a := by
  -- By induction on the rank.
  induction hn : a.rank using WellFoundedLT.induction generalizing a with
  | ind n ih =>
    subst hn
    rw [← h, ← h']
    exact agreeAt_step fun b hb => ih b.rank hb b rfl

theorem eq_of_step_eq (h : eval.step shell r = eval) (h' : eval'.step shell r = eval') :
    eval = eval' := by
  have ha := agreeAt_of_step_eq h h'
  have hw : ∀ {α : Type} {x y : Counting α}, (∀ i, Agree x y i) → x = y := by
    intro α x y hxy
    funext i
    obtain ⟨result, i', hx, hy, -⟩ := hxy i
    rw [hx, hy]
  ext1
  · exact funext fun e => hw fun i => ha ⟨.expr e, i⟩
  · exact funext fun es => hw fun i => ha ⟨.exprs es, i⟩
  · exact funext fun s => hw fun i => ha ⟨.statement s, i⟩
  · exact funext fun ss => hw fun i => ha ⟨.statements ss, i⟩

end

def counting (shell : Shell) (r : Resolution) : Evaluator where
  expr := Expr.evalCounting shell r
  exprs := Expr.evalAllBy shell (r.invokeCounting shell)
  statement := Statement.evalCounting shell r
  statements := Statement.evalAllCounting shell r

theorem stepExpr_counting (shell : Shell) (r : Resolution) (e : Expr) :
    (counting shell r).stepExpr shell r e = e.evalBy shell (r.invokeCounting shell) := by
  cases e with
  | string | integer | decimal | boolean | null | «variable» | externalCall =>
    rw [stepExpr, Expr.evalBy]
  | call id name args =>
    rw [stepExpr, Expr.evalBy]
    cases Builtin.ofName? name with
    | some b => rfl
    | none => exact (r.invokeCounting_eq shell id name).symm
  | binary op left right =>
    rw [stepExpr.eq_def, Expr.evalBy.eq_def]
    rfl

theorem step_counting (shell : Shell) (r : Resolution) :
    (counting shell r).step shell r = counting shell r := by
  ext1
  · exact funext (stepExpr_counting shell r)
  · funext es
    cases es with
    | nil => rfl
    | cons e es => rfl
  · funext s
    cases s with
    | importFile | function | expression => rfl
    | «variable» _ _ init => cases init <;> rfl
  · rfl

end Evaluator

open Evaluator

/-- Evaluation always ends, with whatever links, from whatever machine and with whatever number of
active calls. In one step an evaluator is asked only for what ranks below, and in that of a call of
a declared function only where fewer calls may still be made, however much there is in the body. So
its equations have exactly one solution. This comes to an end at every expression and every
statement, with as many calls active as before, and does what evaluation does with the calls that
are left. -/
theorem evaluation_ends (shell : Shell) (r : Resolution) :
    (∀ (eval eval' : Evaluator) a, AgreeBelow eval eval' a →
      AgreeAt (eval.step shell r) (eval'.step shell r) a) ∧
    (∀ (eval eval' : Evaluator) id name args i, isBuiltin name = false →
      (∀ b : Stage, 128 - b.interpreter.depth < 128 - i.depth → AgreeAt eval eval' b) →
      AgreeAt (eval.step shell r) (eval'.step shell r) ⟨.expr (.call id name args), i⟩) ∧
    ∃ eval : Evaluator, eval.step shell r = eval ∧
      (∀ eval' : Evaluator, eval'.step shell r = eval' → eval' = eval) ∧
      (∀ e i, ∃ result i', eval.expr e i = some (result, i') ∧ i'.depth = i.depth) ∧
      (∀ s i, ∃ result i', eval.statement s i = some (result, i') ∧ i'.depth = i.depth) ∧
      (∀ ss i, ∃ result i', eval.statements ss i = some (result, i') ∧ i'.depth = i.depth) ∧
      ∀ d calls, d + calls = 128 →
        (∀ e, Performs d (eval.expr e) (e.eval shell (r.invoke shell calls))) ∧
        ∀ ss, Performs d (eval.statements ss)
          (Statement.evalAll shell (r.invoke shell calls) ss) := by
  have hs := step_counting shell r
  have ha := agreeAt_of_step_eq hs hs
  refine ⟨fun _ _ _ => agreeAt_step, fun _ _ id _ args _ hb h => agree_stepCall id args hb h,
    counting shell r, hs, fun _ h => eq_of_step_eq h hs, fun e i => ?_, fun s i => ?_,
    fun ss i => ?_, fun d calls hd => ?_⟩
  · obtain ⟨result, i', hx, -, hd⟩ := ha ⟨.expr e, i⟩
    exact ⟨result, i', hx, hd⟩
  · obtain ⟨result, i', hx, -, hd⟩ := ha ⟨.statement s, i⟩
    exact ⟨result, i', hx, hd⟩
  · obtain ⟨result, i', hx, -, hd⟩ := ha ⟨.statements ss, i⟩
    exact ⟨result, i', hx, hd⟩
  · have hi : ∀ id name, Performs d (r.invokeCounting shell id name)
        (r.invoke shell calls id name) := Resolution.performs_invoke hd
    exact ⟨Expr.performs_evalBy hi, Statement.performs_evalAllBy hi⟩

theorem evaluation_ends_selfCall :
    ∃ eval : Evaluator, eval.step (fun _ => .ok {}) selfCallLinks = eval ∧
      AgreeBelow eval eval ⟨.statements [.expression (.call 0 "f" [])], { depth := 7 }⟩ ∧
      AgreeAt (eval.step (fun _ => .ok {}) selfCallLinks)
        (eval.step (fun _ => .ok {}) selfCallLinks)
        ⟨.statements [.expression (.call 0 "f" [])], { depth := 7 }⟩ ∧
      isBuiltin "f" = false ∧
      AgreeAt (eval.step (fun _ => .ok {}) selfCallLinks)
        (eval.step (fun _ => .ok {}) selfCallLinks)
        ⟨.expr (.call 0 "f" []), { depth := 127 }⟩ ∧
      Performs 7 (eval.expr (.call 0 "f" []))
        ((Expr.call 0 "f" []).eval (fun _ => .ok {})
          (selfCallLinks.invoke (fun _ => .ok {}) 121)) := by
  obtain ⟨hstep, hcall, eval, heq, -, -, -, -, hp⟩ :=
    evaluation_ends (fun _ => .ok {}) selfCallLinks
  have ha := agreeAt_of_step_eq heq heq
  exact ⟨eval, heq, fun b _ => ha b, hstep _ _ _ fun b _ => ha b, by decide,
    hcall _ _ 0 "f" [] _ (by decide) fun b _ => ha b, (hp 7 121 rfl).1 _⟩

end FlatScript
