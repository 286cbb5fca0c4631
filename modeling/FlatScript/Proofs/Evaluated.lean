import FlatScript.Evaluation
import FlatScript.Proofs.Part

namespace FlatScript

theorem isBuiltin_eq_false_iff {name : String} :
    isBuiltin name = false ↔ Builtin.ofName? name = none := by
  simp [isBuiltin]

/-! ### Evaluated position -/

/-- The second expression is evaluated whenever the first one is evaluated to its end. The arguments
of a call of a declared function, or of an external one, and the target of an assignment are not. -/
inductive Expr.Evaluates : Expr → Expr → Prop
  | self (e : Expr) : Expr.Evaluates e e
  | argument {id : NodeId} {name : String} {args : List Expr} {e e' : Expr}
      (hb : isBuiltin name = true) (h : e ∈ args) (he : Expr.Evaluates e e') :
      Expr.Evaluates (.call id name args) e'
  | left {op : Operator} {left right e : Expr} (ho : op.isAssignment = false)
      (h : Expr.Evaluates left e) : Expr.Evaluates (.binary op left right) e
  | right {op : Operator} {left right e : Expr} (h : Expr.Evaluates right e) :
      Expr.Evaluates (.binary op left right) e

/-- The expression is evaluated whenever the statement is; the body of a function is not. -/
inductive Statement.Evaluates : Statement → Expr → Prop
  | init {name typeName : String} {e e' : Expr} (h : e.Evaluates e') :
      Statement.Evaluates (.variable name typeName (some e)) e'
  | expression {e e' : Expr} (h : e.Evaluates e') : Statement.Evaluates (.expression e) e'

def Statement.EvaluatesAmong (ss : List Statement) (e : Expr) : Prop := ∃ s ∈ ss, s.Evaluates e

theorem Expr.Evaluates.hasPart {e e' : Expr} (h : e.Evaluates e') : e.HasPart e' := by
  induction h with
  | self => exact .self _
  | argument _ h _ ih => exact .argument h ih
  | left _ _ ih => exact .left ih
  | right _ ih => exact .right ih

theorem Statement.Evaluates.hasPart {s : Statement} {e : Expr} (h : s.Evaluates e) :
    s.HasPart e := by
  cases h with
  | init h => exact .init h.hasPart
  | expression h => exact .expression h.hasPart

theorem Statement.EvaluatesAmong.mem_mentionsAll {ss : List Statement} {id : NodeId} {name : String}
    {args : List Expr} (h : Statement.EvaluatesAmong ss (.call id name args)) :
    ⟨id, name, .call⟩ ∈ Statement.mentionsAll ss := by
  obtain ⟨s, hs, he⟩ := h
  exact Statement.mem_mentionsAll_iff.2
    ⟨s, hs, he.hasPart.mem_mentions (Expr.mem_mentions_of_mention rfl)⟩

/-! ### Success and failure -/

namespace Eval

variable {α β : Type} {x : Eval α} {f : α → Eval β} {e : RuntimeError}

theorem run_bind (x : Eval α) (f : α → Eval β) (m : Machine) :
    (x >>= f).run m =
      match x.run m with
      | (.ok a, m) => (f a).run m
      | (.error e, m) => (.error e, m) := by
  change (ExceptT.bindCont f (x m).1) (x m).2 = _
  change _ = match x m with
    | (.ok a, m) => (f a).run m
    | (.error e, m) => (.error e, m)
  rcases x m with ⟨e | a, m'⟩
  · rfl
  · rfl

def Succeeds (x : Eval α) : Prop := ∃ m a, (x.run m).1 = .ok a

def Fails (x : Eval α) (e : RuntimeError) : Prop := ∃ m, (x.run m).1 = .error e

theorem Succeeds.of_bind (h : (x >>= f).Succeeds) : x.Succeeds ∧ ∃ a, (f a).Succeeds := by
  obtain ⟨m, b, hb⟩ := h
  rw [run_bind] at hb
  split at hb
  next a m' hx => exact ⟨⟨m, a, by rw [hx]⟩, a, m', b, hb⟩
  next => simp at hb

theorem Fails.of_bind (h : (x >>= f).Fails e) : x.Fails e ∨ ∃ a, (f a).Fails e := by
  obtain ⟨m, he⟩ := h
  rw [run_bind] at he
  split at he
  next a m' hx => exact .inr ⟨a, m', he⟩
  next e' m' hx =>
    obtain rfl : e' = e := by simpa using he
    exact .inl ⟨m, by rw [hx]⟩

theorem not_succeeds_throw : ¬ (throw e : Eval α).Succeeds :=
  fun ⟨_, _, h⟩ => nomatch (h : (Except.error e : Except RuntimeError α) = .ok _)

theorem fails_throw_iff {e' : RuntimeError} : (throw e' : Eval α).Fails e ↔ e' = e :=
  ⟨fun ⟨_, h⟩ => Except.error.inj h, fun h => ⟨{}, congrArg Except.error h⟩⟩

theorem not_fails_pure (a : α) : ¬ (pure a : Eval α).Fails e :=
  fun ⟨_, h⟩ => nomatch (h : (Except.ok a : Except RuntimeError α) = .error e)

theorem fails_ofExcept_iff {r : Except RuntimeError α} :
    (liftM r : Eval α).Fails e ↔ r = .error e :=
  ⟨fun ⟨_, h⟩ => h, fun h => ⟨{}, h⟩⟩

theorem Succeeds.of_foldlM {γ : Type} {g : γ → Eval β} {cs : List γ} {b : β}
    (h : (cs.foldlM (fun _ c => g c) b).Succeeds) : ∀ c ∈ cs, (g c).Succeeds := by
  induction cs generalizing b with
  | nil => simp
  | cons c cs ih =>
    rw [List.foldlM_cons] at h
    obtain ⟨hc, b', hs⟩ := h.of_bind
    exact List.forall_mem_cons.2 ⟨hc, ih hs⟩

theorem Fails.of_foldlM {γ : Type} {g : γ → Eval β} {cs : List γ} {b : β}
    (h : (cs.foldlM (fun _ c => g c) b).Fails e) : ∃ c ∈ cs, (g c).Fails e := by
  induction cs generalizing b with
  | nil => exact absurd h (not_fails_pure b)
  | cons c cs ih =>
    rw [List.foldlM_cons] at h
    rcases h.of_bind with hc | ⟨b', hs⟩
    · exact ⟨c, List.mem_cons_self, hc⟩
    · obtain ⟨c', hm, hc⟩ := ih hs
      exact ⟨c', List.mem_cons_of_mem _ hm, hc⟩

end Eval

/-- A failure that only a call of a declared function ends in. -/
inductive RuntimeError.ConcernsCall : RuntimeError → Prop
  | unresolved (name : String) : ConcernsCall (.unresolvedCall name)
  | tooDeep (name : String) (limit : Nat) : ConcernsCall (.callDepthExceeded name limit)

namespace Operator

variable {op : Operator} {e : RuntimeError}

theorem applyInt_eq_error {l r : Int64} (h : op.applyInt l r = .error e) :
    e = .unsupportedOperation op .int .int ∨ e = .divisionByZero := by
  by_cases hr : r = 0
  · cases op <;> simp_all [applyInt]
  · cases op <;> simp_all [applyInt]

theorem applyFloat_eq_error {l r : Float32} (h : op.applyFloat l r = .error e) :
    e = .unsupportedOperation op .float .float := by
  cases op <;> simp_all [applyFloat]

theorem applyString_eq_error {l r : String} (h : op.applyString l r = .error e) :
    e = .unsupportedOperation op .string .string := by
  cases op <;> simp_all [applyString]

theorem applyBool_eq_error {l r : Bool} (h : op.applyBool l r = .error e) :
    e = .unsupportedOperation op .bool .bool := by
  cases op <;> simp_all [applyBool]

theorem apply_eq_error {l r : Value} (h : op.apply l r = .error e) :
    e = .unsupportedOperation op l.type r.type ∨ e = .divisionByZero := by
  unfold apply at h
  split at h
  next => exact applyInt_eq_error h
  next => exact .inl (applyFloat_eq_error h)
  next => exact .inl (applyString_eq_error h)
  next => exact .inl (applyBool_eq_error h)
  next =>
    split at h
    · simp at h
    · exact .inl (Except.error.inj h).symm
  next => exact .inl (Except.error.inj h).symm

theorem not_concernsCall_of_apply {l r : Value} (h : op.apply l r = .error e) :
    ¬ e.ConcernsCall := by
  rcases apply_eq_error h with rfl | rfl <;> exact nofun

theorem not_concernsCall_of_assigned {l r : Value} (h : op.assigned l r = .error e) :
    ¬ e.ConcernsCall := by
  unfold assigned at h
  split at h
  next => exact not_concernsCall_of_apply h
  next =>
    split at h
    · simp at h
    · obtain rfl := Except.error.inj h
      exact nofun

end Operator

section Steps

variable {err : RuntimeError}

theorem not_fails_lookupVariable (name : String) : ¬ (lookupVariable name).Fails err :=
  fun ⟨_, h⟩ => nomatch (h : (Except.ok _ : Except RuntimeError Value) = .error err)

theorem not_fails_setVariable (name : String) (value : Value) :
    ¬ (setVariable name value).Fails err :=
  fun ⟨_, h⟩ => nomatch (h : (Except.ok () : Except RuntimeError Unit) = .error err)

theorem run_writeOutput (text : String) (m : Machine) :
    (writeOutput text).run m =
      (if (m.output.write text).1 then .ok () else .error .outputFull,
        { m with output := (m.output.write text).2 }) := by
  have h : (writeOutput text).run m =
      (if (m.output.write text).1 then (pure () : Eval Unit) else throw .outputFull).run
        { m with output := (m.output.write text).2 } := rfl
  rw [h]
  split <;> rfl

theorem fails_writeOutput {text : String} (h : (writeOutput text).Fails err) :
    err = .outputFull := by
  obtain ⟨m, h⟩ := h
  rw [run_writeOutput] at h
  split at h
  · simp at h
  · exact (Except.error.inj h).symm

theorem not_concernsCall_of_builtin {shell : Shell} {b : Builtin} {args : List Value}
    (h : (b.run shell args).Fails err) : ¬ err.ConcernsCall := by
  have hw : ∀ {text}, (do writeOutput text; return .int 0 : Eval Value).Fails err →
      ¬ err.ConcernsCall := by
    intro text h
    obtain rfl := fails_writeOutput (h.of_bind.resolve_right fun ⟨_, h⟩ => Eval.not_fails_pure _ h)
    exact nofun
  cases b with
  | print => exact hw h
  | printf =>
    cases args with
    | nil => exact hw h
    | cons => exact hw h
  | exec =>
    simp only [Builtin.run, Builtin.runExec] at h
    split at h
    · exact absurd h (Eval.not_fails_pure _)
    · obtain rfl := Eval.fails_throw_iff.1 h
      exact nofun

theorem not_concernsCall_of_assignVariable {op : Operator} {name : String} {value : Value}
    (h : (assignVariable op name value).Fails err) : ¬ err.ConcernsCall := by
  rcases h.of_bind with h | ⟨current, h⟩
  · exact absurd h (not_fails_lookupVariable name)
  rcases h.of_bind with h | ⟨stored, h⟩
  · exact Operator.not_concernsCall_of_assigned (Eval.fails_ofExcept_iff.1 h)
  rcases h.of_bind with h | ⟨_, h⟩
  · exact absurd h (not_fails_setVariable name stored)
  · exact absurd h (Eval.not_fails_pure stored)

end Steps

section Evaluation

variable {shell : Shell} {invoke : NodeId → String → Eval Value} {err : RuntimeError}

theorem Expr.eval_call {id : NodeId} {name : String} {args : List Expr}
    (h : isBuiltin name = false) : (Expr.call id name args).eval shell invoke = invoke id name := by
  rw [Expr.eval, isBuiltin_eq_false_iff.1 h]

theorem Expr.eval_binary (op : Operator) (left right : Expr) :
    (Expr.binary op left right).eval shell invoke =
      (if op.isAssignment then
        match left with
        | .variable _ name => do assignVariable op name (← right.eval shell invoke)
        | _ => throw (.invalidAssignmentTarget op)
      else do
        let l ← left.eval shell invoke
        let r ← right.eval shell invoke
        op.apply l r) := rfl

theorem Expr.succeeds_of_evalAll {es : List Expr} (h : (Expr.evalAll shell invoke es).Succeeds) :
    ∀ e ∈ es, (e.eval shell invoke).Succeeds := by
  induction es with
  | nil => simp
  | cons e es ih =>
    rw [Expr.evalAll] at h
    obtain ⟨he, _, hs⟩ := h.of_bind
    exact List.forall_mem_cons.2 ⟨he, ih hs.of_bind.1⟩

theorem Expr.Evaluates.succeeds {e e' : Expr} (h : e.Evaluates e')
    (he : (e.eval shell invoke).Succeeds) : (e'.eval shell invoke).Succeeds := by
  induction h with
  | self => exact he
  | argument hb hm _ ih =>
    obtain ⟨b, hb⟩ := Option.isSome_iff_exists.1 hb
    rw [Expr.eval, hb] at he
    exact ih (Expr.succeeds_of_evalAll he.of_bind.1 _ hm)
  | left ho _ ih =>
    rw [Expr.eval_binary, ho] at he
    exact ih he.of_bind.1
  | right _ ih =>
    rw [Expr.eval_binary] at he
    split at he
    next =>
      split at he
      next => exact ih he.of_bind.1
      next => exact absurd he Eval.not_succeeds_throw
    next =>
      obtain ⟨-, _, he⟩ := he.of_bind
      exact ih he.of_bind.1

theorem Statement.Evaluates.succeeds {s : Statement} {e : Expr} (h : s.Evaluates e)
    (hs : (s.eval shell invoke).Succeeds) : (e.eval shell invoke).Succeeds := by
  cases h with
  | init h =>
    rw [Statement.eval] at hs
    exact h.succeeds hs.of_bind.1
  | expression h => exact h.succeeds hs

theorem Statement.EvaluatesAmong.succeeds {ss : List Statement} {e : Expr}
    (h : Statement.EvaluatesAmong ss e) (hs : (Statement.evalAll shell invoke ss).Succeeds) :
    (e.eval shell invoke).Succeeds := by
  obtain ⟨s, hm, he⟩ := h
  exact he.succeeds (hs.of_foldlM s hm)

mutual

theorem Expr.exists_call_of_fails (hc : err.ConcernsCall) : ∀ {e : Expr}, (e.eval shell invoke).Fails err →
    ∃ id name args, e.Evaluates (.call id name args) ∧ isBuiltin name = false ∧
      (invoke id name).Fails err
  | .string _, h | .integer _, h | .decimal _, h | .boolean _, h | .null, h =>
    absurd h (Eval.not_fails_pure _)
  | .variable _ name, h => absurd h (not_fails_lookupVariable name)
  | .externalCall _ _ _, h => by
    obtain rfl := Eval.fails_throw_iff.1 h
    nomatch hc
  | .call id name args, h => by
    cases hb : isBuiltin name with
    | false =>
      rw [Expr.eval_call hb] at h
      exact ⟨id, name, args, .self _, hb, h⟩
    | true =>
      obtain ⟨b, hb'⟩ := Option.isSome_iff_exists.1 hb
      rw [Expr.eval, hb'] at h
      rcases h.of_bind with h | ⟨values, h⟩
      · obtain ⟨e, he, id', name', args', hp, hcall⟩ := Expr.exists_call_of_evalAll_fails hc h
        exact ⟨id', name', args', .argument hb he hp, hcall⟩
      · exact absurd hc (not_concernsCall_of_builtin h)
  | .binary op left right, h => by
    rw [Expr.eval_binary] at h
    split at h
    next =>
      split at h
      next =>
        rcases h.of_bind with h | ⟨_, h⟩
        · obtain ⟨id, name, args, hp, hcall⟩ := Expr.exists_call_of_fails hc h
          exact ⟨id, name, args, .right hp, hcall⟩
        · exact absurd hc (not_concernsCall_of_assignVariable h)
      next =>
        obtain rfl := Eval.fails_throw_iff.1 h
        nomatch hc
    next ho =>
      -- What fails is the left operand, the right one, or the operator itself.
      rcases h.of_bind with h | ⟨_, h⟩
      · obtain ⟨id, name, args, hp, hcall⟩ := Expr.exists_call_of_fails hc h
        exact ⟨id, name, args, .left ((Bool.not_eq_true _).mp ho) hp, hcall⟩
      rcases h.of_bind with h | ⟨_, h⟩
      · obtain ⟨id, name, args, hp, hcall⟩ := Expr.exists_call_of_fails hc h
        exact ⟨id, name, args, .right hp, hcall⟩
      · exact absurd hc (Operator.not_concernsCall_of_apply (Eval.fails_ofExcept_iff.1 h))

theorem Expr.exists_call_of_evalAll_fails (hc : err.ConcernsCall) : ∀ {es : List Expr},
    (Expr.evalAll shell invoke es).Fails err →
    ∃ e ∈ es, ∃ id name args, e.Evaluates (.call id name args) ∧ isBuiltin name = false ∧
      (invoke id name).Fails err
  | [], h => absurd h (Eval.not_fails_pure _)
  | e :: es, h => by
    rw [Expr.evalAll] at h
    rcases h.of_bind with h | ⟨_, h⟩
    · exact ⟨e, List.mem_cons_self, Expr.exists_call_of_fails hc h⟩
    rcases h.of_bind with h | ⟨_, h⟩
    · obtain ⟨e', he, hcall⟩ := Expr.exists_call_of_evalAll_fails hc h
      exact ⟨e', List.mem_cons_of_mem _ he, hcall⟩
    · exact absurd h (Eval.not_fails_pure _)

end

theorem Statement.exists_call_of_eval_fails (hc : err.ConcernsCall) {s : Statement}
    (h : (s.eval shell invoke).Fails err) :
    ∃ id name args, s.Evaluates (.call id name args) ∧ isBuiltin name = false ∧
      (invoke id name).Fails err := by
  match s, h with
  | .importFile _, h | .function _ _, h | .variable _ _ none, h =>
    exact absurd h (Eval.not_fails_pure _)
  | .variable name _ (some e), h =>
    rw [Statement.eval] at h
    rcases h.of_bind with h | ⟨value, h⟩
    · obtain ⟨id, name, args, hp, hcall⟩ := Expr.exists_call_of_fails hc h
      exact ⟨id, name, args, .init hp, hcall⟩
    rcases h.of_bind with h | ⟨_, h⟩
    · exact absurd h (not_fails_setVariable name value)
    · exact absurd h (Eval.not_fails_pure value)
  | .expression e, h =>
    obtain ⟨id, name, args, hp, hcall⟩ := Expr.exists_call_of_fails hc h
    exact ⟨id, name, args, .expression hp, hcall⟩

/-- A failure that concerns a call comes from a call in evaluated position. -/
theorem Statement.exists_call_of_fails (hc : err.ConcernsCall) {ss : List Statement}
    (h : (Statement.evalAll shell invoke ss).Fails err) :
    ∃ id name args, Statement.EvaluatesAmong ss (.call id name args) ∧ isBuiltin name = false ∧
      (invoke id name).Fails err := by
  obtain ⟨s, hs, h⟩ := h.of_foldlM
  obtain ⟨id, name, args, hp, hcall⟩ := Statement.exists_call_of_eval_fails hc h
  exact ⟨id, name, args, ⟨s, hs, hp⟩, hcall⟩

end Evaluation

end FlatScript
