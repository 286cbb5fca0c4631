import FlatScript.Proofs.CallChain
import FlatScript.Proofs.Counting

namespace FlatScript

/-- A failure for having too many calls active. -/
def RuntimeError.IsTooDeep (e : RuntimeError) : Prop :=
  ∃ name limit, e = .callDepthExceeded name limit

namespace Eval

variable {α β : Type} {x y : Eval α} {f g : α → Eval β}

/-- From every machine from which `x` does not end for having too many calls active, `y` does what
`x` does. In a `Correspondence` either run may end in an exempt failure; here it is `x` only. -/
def Prolongs (x y : Eval α) : Prop :=
  ∀ m, (∀ e, (x.run m).1 = .error e → ¬ e.IsTooDeep) → y.run m = x.run m

theorem Prolongs.refl (x : Eval α) : x.Prolongs x := fun _ _ => rfl

theorem prolongs_throw {e : RuntimeError} (h : e.IsTooDeep) (y : Eval α) :
    (throw e : Eval α).Prolongs y := fun _ hm => absurd h (hm e rfl)

theorem Prolongs.bind (hx : x.Prolongs y) (hf : ∀ a, (f a).Prolongs (g a)) :
    (x >>= f).Prolongs (y >>= g) := by
  intro m hm
  rw [run_bind] at hm
  have hy : y.run m = x.run m := hx m fun e he => by
    obtain ⟨m', hr⟩ : ∃ m', x.run m = (.error e, m') := ⟨_, Prod.ext he rfl⟩
    rw [hr] at hm
    exact hm e rfl
  rw [run_bind, run_bind, hy]
  rcases hr : x.run m with ⟨e | a, m'⟩
  · rfl
  · rw [hr] at hm
    exact hf a m' hm

theorem prolongs_foldlM {ι : Type} {f g : ι → Eval α} {is : List ι} (a : α)
    (h : ∀ i ∈ is, (f i).Prolongs (g i)) :
    (is.foldlM (fun _ i => f i) a).Prolongs (is.foldlM (fun _ i => g i) a) := by
  induction is generalizing a with
  | nil => exact .refl _
  | cons i is ih =>
    rw [List.forall_mem_cons] at h
    rw [List.foldlM_cons, List.foldlM_cons]
    exact h.1.bind fun a => ih a h.2

end Eval

open Eval

section Evaluation

variable {shell : Shell} {invoke invoke' : NodeId → String → Eval Value}

mutual

theorem Expr.prolongs_eval (hi : ∀ id name, (invoke id name).Prolongs (invoke' id name)) :
    ∀ e : Expr, (e.eval shell invoke).Prolongs (e.eval shell invoke')
  | .string _ | .integer _ | .decimal _ | .boolean _ | .null | .variable _ _
  | .externalCall _ _ _ => .refl _
  | .call id name args => by
    rw [Expr.eval, Expr.eval]
    cases Builtin.ofName? name with
    | some b => exact (Expr.prolongs_evalAll hi args).bind fun values => .refl _
    | none => exact hi id name
  | .binary op left right => by
    rw [Expr.eval_binary, Expr.eval_binary]
    split
    · split
      · exact (Expr.prolongs_eval hi right).bind fun value => .refl _
      · exact .refl _
    · exact (Expr.prolongs_eval hi left).bind fun l =>
        (Expr.prolongs_eval hi right).bind fun r => .refl _

theorem Expr.prolongs_evalAll (hi : ∀ id name, (invoke id name).Prolongs (invoke' id name)) :
    ∀ es : List Expr, (Expr.evalAll shell invoke es).Prolongs (Expr.evalAll shell invoke' es)
  | [] => .refl _
  | e :: es => by
    rw [Expr.evalAll, Expr.evalAll]
    exact (Expr.prolongs_eval hi e).bind fun value =>
      (Expr.prolongs_evalAll hi es).bind fun values => .refl _

end

theorem Statement.prolongs_eval (hi : ∀ id name, (invoke id name).Prolongs (invoke' id name))
    (s : Statement) : (s.eval shell invoke).Prolongs (s.eval shell invoke') := by
  cases s with
  | importFile | function => exact .refl _
  | «variable» name _ init =>
    cases init with
    | none => exact .refl _
    | some e =>
      rw [Statement.eval, Statement.eval]
      exact (Expr.prolongs_eval hi e).bind fun value => .refl _
  | expression e => exact Expr.prolongs_eval hi e

theorem Statement.prolongs_evalAll (hi : ∀ id name, (invoke id name).Prolongs (invoke' id name))
    (ss : List Statement) :
    (Statement.evalAll shell invoke ss).Prolongs (Statement.evalAll shell invoke' ss) := by
  rw [Statement.evalAll, Statement.evalAll]
  exact prolongs_foldlM .nil fun s _ => Statement.prolongs_eval hi s

end Evaluation

theorem Resolution.prolongs_invoke (r : Resolution) (shell : Shell) {calls calls' : Nat}
    (h : calls ≤ calls') (id : NodeId) (name : String) :
    (r.invoke shell calls id name).Prolongs (r.invoke shell calls' id name) := by
  -- By induction on the calls that are left: in a body, both runs have one less.
  induction calls generalizing calls' id name with
  | zero =>
    rw [invoke.eq_def, invoke.eq_def]
    cases r.functionFor? id with
    | none => exact .refl _
    | some body => exact prolongs_throw ⟨_, _, rfl⟩ _
  | succ calls ih =>
    obtain ⟨calls', rfl⟩ : ∃ n, calls' = n + 1 := ⟨calls' - 1, by omega⟩
    rw [invoke, invoke]
    cases r.functionFor? id with
    | none => exact .refl _
    | some body => exact Statement.prolongs_evalAll (ih (Nat.le_of_succ_le_succ h)) body

/-- An expression that is evaluated with `d` calls active, and does not fail for having too many
calls active, comes to the same end with fewer of them: to the same value or failure, the same
environment and the same output. -/
theorem evalCounting_eq_of_deeper {shell : Shell} {r : Resolution} {e : Expr} {m : Machine}
    {d d' : Nat} (hd' : d' < d) (hd : d ≤ 128)
    (h : ∀ name limit i,
      e.evalCounting shell r ⟨m, d⟩ ≠ some (.error (.callDepthExceeded name limit), i)) :
    ∃ result m', e.evalCounting shell r ⟨m, d⟩ = some (result, ⟨m', d⟩) ∧
      e.evalCounting shell r ⟨m, d'⟩ = some (result, ⟨m', d'⟩) := by
  have hp : ∀ {k}, k ≤ 128 → e.evalCounting shell r ⟨m, k⟩ =
      some (((e.eval shell (r.invoke shell (128 - k))).run m).1,
        ⟨((e.eval shell (r.invoke shell (128 - k))).run m).2, k⟩) := fun hk =>
    Expr.performs_evalBy (Resolution.performs_invoke (Nat.add_sub_of_le hk)) e m
  have hrun : (e.eval shell (r.invoke shell (128 - d'))).run m =
      (e.eval shell (r.invoke shell (128 - d))).run m := by
    refine Expr.prolongs_eval (r.prolongs_invoke shell (by omega)) e m ?_
    rintro _ he ⟨name, limit, rfl⟩
    exact h name limit _ ((hp hd).trans (by rw [he]))
  refine ⟨_, _, hp hd, ?_⟩
  rw [hp (by omega), hrun]

theorem evalCounting_sum_eq_of_deeper :
    (Expr.binary .add (.call 2 "g" []) (.call 2 "g" [])).evalCounting (fun _ => .ok {})
        selfCallLinks ⟨{}, 127⟩ = some (.ok (.int 2), ⟨{}, 127⟩) ∧
      (Expr.binary .add (.call 2 "g" []) (.call 2 "g" [])).evalCounting (fun _ => .ok {})
        selfCallLinks ⟨{}, 3⟩ = some (.ok (.int 2), ⟨{}, 3⟩) := by
  have hr : (Expr.binary .add (.call 2 "g" []) (.call 2 "g" [])).evalCounting (fun _ => .ok {})
      selfCallLinks ⟨{}, 127⟩ = some (.ok (.int 2), ⟨{}, 127⟩) := rfl
  have hs : (3 : Nat) < 127 := by decide
  obtain ⟨result, m', hd, hd'⟩ := evalCounting_eq_of_deeper hs (by decide) fun name limit i h => by
    rw [hr] at h
    simp at h
  obtain ⟨rfl, hm⟩ := Prod.mk.inj (Option.some.inj (hr.symm.trans hd))
  obtain rfl : {} = m' := congrArg Interpreter.machine hm
  exact ⟨hr, hd'⟩

end FlatScript
