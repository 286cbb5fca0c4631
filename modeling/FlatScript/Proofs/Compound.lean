import FlatScript.Proofs.Frame

namespace FlatScript

namespace Operator

variable {op base : Operator}

theorem isAssignment_of_base (h : op.base? = some base) : op.isAssignment = true := by
  cases op with
  | addAssign | subtractAssign | multiplyAssign | divideAssign | moduloAssign | bitAndAssign
  | bitOrAssign | bitXorAssign => rfl
  | _ => cases h

theorem isAssignment_base (h : op.base? = some base) : base.isAssignment = false := by
  cases op with
  | addAssign | subtractAssign | multiplyAssign | divideAssign | moduloAssign | bitAndAssign
  | bitOrAssign | bitXorAssign =>
    cases h
    rfl
  | _ => cases h

end Operator

/-- What an assignment to `x` ends in, given what it is to store. -/
def Machine.assign (m : Machine) (x : String) :
    Except RuntimeError Value → Except RuntimeError Value × Machine
  | .ok value => (.ok value, { m with environment := m.environment.set x value })
  | .error err => (.error err, m)

theorem Machine.assign_eq_error {m : Machine} {x : String} {result : Except RuntimeError Value}
    {err : RuntimeError} (h : (m.assign x result).1 = .error err) :
    result = .error err ∧ (m.assign x result).2 = m := by
  cases result with
  | ok value => cases h
  | error err' => exact ⟨h, rfl⟩

theorem run_assignVariable (op : Operator) (x : String) (value : Value) (m : Machine) :
    (assignVariable op x value).run m = m.assign x (op.assigned (m.environment.get x) value) := by
  have h : (assignVariable op x value).run m =
      ((liftM (op.assigned (m.environment.get x) value) : Eval Value) >>= fun stored => do
        setVariable x stored
        return stored).run m := rfl
  rw [h, Eval.run_bind]
  cases op.assigned (m.environment.get x) value with
  | ok stored => rfl
  | error err => rfl

section Assignment

variable {shell : Shell} {invoke : NodeId → String → Eval Value} {op : Operator} {e : Expr}
  {x : String} {value : Value} {err : RuntimeError} {m m' : Machine}

theorem run_binary_of_error (id : NodeId) (he : (e.eval shell invoke).run m = (.error err, m')) :
    ((Expr.binary op (.variable id x) e).eval shell invoke).run m = (.error err, m') := by
  rw [Expr.eval_binary]
  split
  · rw [Eval.run_bind, he]
  · change (e.eval shell invoke >>= fun value =>
      (liftM (op.apply (m.environment.get x) value) : Eval Value)).run m = _
    rw [Eval.run_bind, he]

/-- The variable is looked up when the right side has been evaluated. -/
theorem run_assignment_of_ok (ho : op.isAssignment = true) (id : NodeId)
    (he : (e.eval shell invoke).run m = (.ok value, m')) :
    ((Expr.binary op (.variable id x) e).eval shell invoke).run m =
      m'.assign x (op.assigned (m'.environment.get x) value) := by
  rw [Expr.eval_binary, ho]
  change (e.eval shell invoke >>= assignVariable op x).run m = _
  rw [Eval.run_bind, he, ← run_assignVariable]

/-- The variable is looked up before the right side is evaluated. -/
theorem run_binary_of_ok (ho : op.isAssignment = false) (id : NodeId)
    (he : (e.eval shell invoke).run m = (.ok value, m')) :
    ((Expr.binary op (.variable id x) e).eval shell invoke).run m =
      (op.apply (m.environment.get x) value, m') := by
  rw [Expr.eval_binary, ho]
  change (e.eval shell invoke >>= fun value =>
    (liftM (op.apply (m.environment.get x) value) : Eval Value)).run m = _
  rw [Eval.run_bind, he]
  rfl

variable {base : Operator} (ho : op.base? = some base)

include ho

theorem run_compound_of_ok (id : NodeId) (he : (e.eval shell invoke).run m = (.ok value, m')) :
    ((Expr.binary op (.variable id x) e).eval shell invoke).run m =
      m'.assign x (base.apply (m'.environment.get x) value) := by
  rw [run_assignment_of_ok (Operator.isAssignment_of_base ho) id he, Operator.assigned, ho]

theorem run_expanded_of_ok (id id' : NodeId)
    (he : (e.eval shell invoke).run m = (.ok value, m')) :
    ((Expr.binary .assign (.variable id x) (.binary base (.variable id' x) e)).eval shell
        invoke).run m = m'.assign x (base.apply (m.environment.get x) value) := by
  have hb := run_binary_of_ok (x := x) (Operator.isAssignment_base ho) id' he
  cases hv : base.apply (m.environment.get x) value with
  | ok stored =>
    rw [hv] at hb
    rw [run_assignment_of_ok rfl id hb]
    rfl
  | error err =>
    rw [hv] at hb
    rw [run_binary_of_error id hb]
    rfl

end Assignment

theorem get?_of_not_sets {r : Resolution} {e : Expr} {x : String}
    (hx : ¬ r.Sets [.expression e] x) (shell : Shell) (calls : Nat) (m : Machine) :
    ((e.eval shell (r.invoke shell calls)).run m).2.environment.get? x =
      m.environment.get? x := by
  have h : (Statement.evalAll shell (r.invoke shell calls) [.expression e]).Confined
      (r.Sets [.expression e]) := Resolution.confined_evalAll (fun _ hs => hs) calls
  have he : Statement.evalAll shell (r.invoke shell calls) [.expression e] =
      e.eval shell (r.invoke shell calls) := by
    rw [Statement.evalAll, List.foldlM_cons]
    simp only [List.foldlM_nil, bind_pure]
    rfl
  rw [he] at h
  exact (h m).get?_eq x hx

/-- A compound assignment to a variable that its right side does not set does the same as the
assignment that is written out, whatever else the right side does. It fails where its right side
does, and else only as the operator does that it applies, not as the one that it is written with.
When it fails, the variable is as it was before. -/
theorem compound_eq_expanded {op base : Operator} (ho : op.base? = some base) {r : Resolution}
    {e : Expr} {x : String} (hx : ¬ r.Sets [.expression e] x) (shell : Shell) (calls : Nat)
    (id id' id'' : NodeId) (m : Machine) :
    let side := (e.eval shell (r.invoke shell calls)).run m
    let compound := ((Expr.binary op (.variable id x) e).eval shell (r.invoke shell calls)).run m
    let expanded := ((Expr.binary .assign (.variable id' x)
      (.binary base (.variable id'' x) e)).eval shell (r.invoke shell calls)).run m
    compound = expanded ∧
      (∀ err, side.1 = .error err → compound = side) ∧
      (∀ value err, side.1 = .ok value → compound.1 = .error err →
        err = .unsupportedOperation base (m.environment.get x).type value.type ∨
          err = .divisionByZero) ∧
      ∀ err, compound.1 = .error err →
        compound.2.environment.get? x = m.environment.get? x := by
  intro side compound expanded
  have hget : side.2.environment.get? x = m.environment.get? x := get?_of_not_sets hx shell calls m
  obtain ⟨result, m', hs⟩ : ∃ result m', side = (result, m') := ⟨_, _, rfl⟩
  rw [hs] at hget ⊢
  cases result with
  | error err =>
    have hc : compound = (.error err, m') := run_binary_of_error id hs
    have he : expanded = (.error err, m') := run_binary_of_error id' (run_binary_of_error id'' hs)
    rw [hc, he]
    refine ⟨rfl, fun _ _ => rfl, fun value err' hv => ?_, fun _ _ => hget⟩
    cases hv
  | ok value =>
    have hx : m'.environment.get x = m.environment.get x := by
      rw [Environment.get, hget, Environment.get]
    have hc : compound = m'.assign x (base.apply (m.environment.get x) value) :=
      hx ▸ run_compound_of_ok ho id hs
    have he : expanded = m'.assign x (base.apply (m.environment.get x) value) :=
      run_expanded_of_ok ho id' id'' hs
    rw [he, hc]
    refine ⟨rfl, fun err he => ?_, fun v err hv herr => ?_, fun err herr => ?_⟩
    · cases he
    · obtain rfl := Except.ok.inj hv
      exact Operator.apply_eq_error (Machine.assign_eq_error herr).1
    · rw [(Machine.assign_eq_error herr).2]
      exact hget

def assignInteger (k : String) (n : Int64) : Expr := .binary .assign (.variable 1 k) (.integer n)

theorem not_sets_assignInteger (r : Resolution) {k x : String} (hx : x ≠ k) (n : Int64) :
    ¬ r.Sets [.expression (assignInteger k n)] x := by
  have he : ∀ {e}, Statement.EvaluatesAmong [.expression (assignInteger k n)] e →
      e = assignInteger k n ∨ e = .integer n := by
    rintro e ⟨s, hs, he⟩
    obtain rfl := List.mem_singleton.1 hs
    cases he with
    | expression he =>
      cases he with
      | self => exact .inl rfl
      | left ho => exact absurd ho (by decide)
      | right he =>
        cases he
        exact .inr rfl
  rw [Resolution.sets_iff]
  rintro (h | ⟨id, f, args, body, -, hc, -⟩)
  · cases h with
    | declared h => simp at h
    | assigned _ h =>
      rcases he h with h | h
      · cases h
        exact hx rfl
      · cases h
  · rcases he hc with hc | hc
    · cases hc
    · cases hc

/-- The right side of `n /= (k = 0)` sets `k`, and the division fails. -/
theorem compound_eq_expanded_divide :
    let m : Machine := { environment := Environment.set {} "n" (.int 40) }
    let compound := ((Expr.binary .divideAssign (.variable 0 "n") (assignInteger "k" 0)).eval
      (fun _ => .ok {}) (selfCallLinks.invoke (fun _ => .ok {}) 128)).run m
    ¬ selfCallLinks.Sets [.expression (assignInteger "k" 0)] "n" ∧
      compound.1 = .error .divisionByZero ∧
      compound = ((Expr.binary .assign (.variable 0 "n")
        (.binary .divide (.variable 0 "n") (assignInteger "k" 0))).eval (fun _ => .ok {})
          (selfCallLinks.invoke (fun _ => .ok {}) 128)).run m ∧
      compound.2.environment.get? "n" = some (.int 40) ∧
      compound.2.environment.get? "k" = some (.int 0) := by
  intro m compound
  have hx := not_sets_assignInteger selfCallLinks (k := "k") (x := "n") (by decide) 0
  have hc : compound.1 = .error .divisionByZero := rfl
  have ho : Operator.divideAssign.base? = some .divide := rfl
  obtain ⟨he, -, -, hget⟩ := compound_eq_expanded ho hx (fun _ => .ok {}) 128 0 0 0 m
  exact ⟨hx, hc, he, hget _ hc, rfl⟩

end FlatScript
