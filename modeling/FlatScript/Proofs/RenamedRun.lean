import Mathlib.Data.List.Nodup
import FlatScript.Proofs.Evaluated
import FlatScript.Proofs.Renaming

namespace FlatScript

section Definitions

variable (ρ : Renaming)

def Environment.renamed (env : Environment) : Environment where
  entries := env.entries.map (Prod.map ρ.apply id)
  nodup := by
    have hkeys : (env.entries.map (Prod.map ρ.apply id)).map Prod.fst =
        (env.entries.map Prod.fst).map ρ.apply := by
      rw [List.map_map, List.map_map]
      rfl
    rw [hkeys]
    exact List.Nodup.map ρ.injective env.nodup

def Machine.renamed (m : Machine) : Machine := { m with environment := m.environment.renamed ρ }

def RuntimeError.renamed : RuntimeError → RuntimeError
  | .unresolvedCall name => .unresolvedCall (ρ.apply name)
  | .callDepthExceeded name limit => .callDepthExceeded (ρ.apply name) limit
  | e => e

end Definitions

variable {ρ : Renaming}

namespace Environment

theorem setEntry_renamed (ρ : Renaming) (name : String) (value : Value)
    (entries : List (String × Value)) :
    setEntry (ρ.apply name) value (entries.map (Prod.map ρ.apply id)) =
      (setEntry name value entries).map (Prod.map ρ.apply id) := by
  induction entries with
  | nil => rfl
  | cons entry entries ih =>
    have hkey : (Prod.map ρ.apply id entry).1 = ρ.apply name ↔ entry.1 = name :=
      ρ.injective.eq_iff
    rw [List.map_cons, setEntry, setEntry]
    by_cases h : entry.1 = name
    · rw [if_pos h, if_pos (hkey.2 h)]
      rfl
    · rw [if_neg h, if_neg (mt hkey.1 h), ih]
      rfl

theorem set_renamed (ρ : Renaming) (env : Environment) (name : String) (value : Value) :
    (env.renamed ρ).set (ρ.apply name) value = (env.set name value).renamed ρ := by
  have h := setEntry_renamed ρ name value env.entries
  simp only [set, renamed, h]

theorem get_renamed (ρ : Renaming) (env : Environment) (name : String) :
    (env.renamed ρ).get (ρ.apply name) = env.get name := by
  have hkey : ∀ entry : String × Value,
      ((Prod.map ρ.apply id entry).1 == ρ.apply name) = (entry.1 == name) := by
    intro entry
    rw [Bool.eq_iff_iff, beq_iff_eq, beq_iff_eq]
    exact ρ.injective.eq_iff
  simp only [get, get?, renamed, List.find?_map, Function.comp_def, hkey, Option.map_map]
  rfl

end Environment

theorem RuntimeError.renamed_of_not_concernsCall {e : RuntimeError} (h : ¬ e.ConcernsCall) :
    e.renamed ρ = e := by
  cases e
  case unresolvedCall name => exact absurd (.unresolved name) h
  case callDepthExceeded name limit => exact absurd (.tooDeep name limit) h
  all_goals rfl

/-! ### Steps -/

namespace Eval

variable {α β : Type}

/-- On the renamed machine, the second steps do what the first ones do on the machine. -/
def Renames (ρ : Renaming) (x y : Eval α) : Prop :=
  ∀ m, y.run (m.renamed ρ) =
    ((x.run m).1.mapError (RuntimeError.renamed ρ), (x.run m).2.renamed ρ)

namespace Renames

theorem pure (a : α) : Renames ρ (Pure.pure a) (Pure.pure a) := fun _ => rfl

theorem throw (e : RuntimeError) :
    Renames ρ (MonadExcept.throw e : Eval α) (MonadExcept.throw (e.renamed ρ)) := fun _ => rfl

theorem throw_of_not_concernsCall {e : RuntimeError} (h : ¬ e.ConcernsCall) :
    Renames ρ (MonadExcept.throw e : Eval α) (MonadExcept.throw e) := by
  have ht := throw (ρ := ρ) (α := α) e
  rwa [RuntimeError.renamed_of_not_concernsCall h] at ht

theorem ofExcept {r : Except RuntimeError α} (h : ∀ e, r = .error e → ¬ e.ConcernsCall) :
    Renames ρ (liftM r : Eval α) (liftM r) := by
  cases r with
  | ok a => exact pure a
  | error e => exact throw_of_not_concernsCall (h e rfl)

theorem bind {x y : Eval α} {f g : α → Eval β} (h : Renames ρ x y)
    (hf : ∀ a, Renames ρ (f a) (g a)) : Renames ρ (x >>= f) (y >>= g) := by
  intro m
  rw [run_bind, run_bind, h m]
  rcases x.run m with ⟨e | a, m'⟩
  · rfl
  · exact hf a m'

theorem foldlM {γ δ : Type} {f : γ → Eval β} {g : δ → Eval β} {r : γ → δ} {cs : List γ}
    (h : ∀ c ∈ cs, Renames ρ (f c) (g (r c))) (b : β) :
    Renames ρ (cs.foldlM (fun _ c => f c) b) ((cs.map r).foldlM (fun _ d => g d) b) := by
  induction cs generalizing b with
  | nil => exact pure b
  | cons c cs ih =>
    rw [List.forall_mem_cons] at h
    rw [List.map_cons, List.foldlM_cons, List.foldlM_cons]
    exact h.1.bind fun b' => ih h.2 b'

end Renames

end Eval

theorem renames_lookupVariable (name : String) :
    Eval.Renames ρ (lookupVariable name) (lookupVariable (ρ.apply name)) :=
  fun m => congrArg (fun value => (Except.ok value, m.renamed ρ))
    (m.environment.get_renamed ρ name)

theorem renames_setVariable (name : String) (value : Value) :
    Eval.Renames ρ (setVariable name value) (setVariable (ρ.apply name) value) :=
  fun m => congrArg (fun environment => (Except.ok (), Machine.mk environment m.output))
    (m.environment.set_renamed ρ name value)

theorem renames_writeOutput (text : String) :
    Eval.Renames ρ (writeOutput text) (writeOutput text) := by
  intro m
  rw [run_writeOutput, run_writeOutput]
  have ho : (m.renamed ρ).output = m.output := rfl
  rw [ho]
  by_cases h : (m.output.write text).1 = true
  · rw [if_pos h]
    rfl
  · rw [if_neg h]
    rfl

theorem Builtin.renames_run (shell : Shell) (b : Builtin) (args : List Value) :
    Eval.Renames ρ (b.run shell args) (b.run shell args) := by
  cases b with
  | print => exact (renames_writeOutput _).bind fun _ => .pure _
  | printf =>
    cases args with
    | nil => exact (renames_writeOutput _).bind fun _ => .pure _
    | cons => exact (renames_writeOutput _).bind fun _ => .pure _
  | exec =>
    simp only [run, runExec]
    split
    next => exact .pure _
    next => exact .throw _

theorem renames_assignVariable (op : Operator) (name : String) (value : Value) :
    Eval.Renames ρ (assignVariable op name value) (assignVariable op (ρ.apply name) value) :=
  (renames_lookupVariable name).bind fun _ =>
    (Eval.Renames.ofExcept fun _ => Operator.not_concernsCall_of_assigned).bind fun stored =>
      (renames_setVariable name stored).bind fun _ => .pure stored

section

variable {shell : Shell} {invoke invoke' : NodeId → String → Eval Value}

mutual

theorem Expr.renames_eval
    (hi : ∀ id name, Eval.Renames ρ (invoke id name) (invoke' id (ρ.apply name))) :
    ∀ e : Expr,
    Eval.Renames ρ (e.eval shell invoke) ((e.renamed ρ).eval shell invoke')
  | .string _ | .integer _ | .decimal _ | .boolean _ | .null => .pure _
  | .variable _ name => renames_lookupVariable name
  | .call id name args => by
    rw [Expr.renamed, Expr.eval, Expr.eval, Builtin.ofName_renamed]
    cases Builtin.ofName? name with
    | some b => exact (Expr.renames_evalAll hi args).bind fun values => b.renames_run shell values
    | none => exact hi id name
  | .externalCall _ _ _ => .throw _
  | .binary op left right => by
    rw [Expr.renamed, Expr.eval_binary, Expr.eval_binary]
    split
    next =>
      -- The target stays a variable, or stays none.
      cases left
      case «variable» id name =>
        exact (Expr.renames_eval hi right).bind fun value => renames_assignVariable op name value
      all_goals exact .throw _
    next =>
      exact (Expr.renames_eval hi left).bind fun l => (Expr.renames_eval hi right).bind fun r =>
        .ofExcept fun _ => Operator.not_concernsCall_of_apply

theorem Expr.renames_evalAll
    (hi : ∀ id name, Eval.Renames ρ (invoke id name) (invoke' id (ρ.apply name))) :
    ∀ es : List Expr,
    Eval.Renames ρ (Expr.evalAll shell invoke es)
      (Expr.evalAll shell invoke' (Expr.renamedAll ρ es))
  | [] => .pure []
  | e :: es =>
    (Expr.renames_eval hi e).bind fun value => (Expr.renames_evalAll hi es).bind fun values =>
      .pure (value :: values)

end

theorem Statement.renames_eval
    (hi : ∀ id name, Eval.Renames ρ (invoke id name) (invoke' id (ρ.apply name)))
    (s : Statement) :
    Eval.Renames ρ (s.eval shell invoke) ((s.renamed ρ).eval shell invoke') := by
  cases s with
  | importFile | function => exact .pure _
  | «variable» name _ init =>
    cases init with
    | none => exact .pure _
    | some e =>
      exact (Expr.renames_eval hi e).bind fun value =>
        (renames_setVariable name value).bind fun _ => .pure value
  | expression e => exact Expr.renames_eval hi e

theorem Statement.renames_evalAll
    (hi : ∀ id name, Eval.Renames ρ (invoke id name) (invoke' id (ρ.apply name)))
    (ss : List Statement) :
    Eval.Renames ρ (Statement.evalAll shell invoke ss)
      (Statement.evalAll shell invoke' (Statement.renamedAll ρ ss)) := by
  rw [Statement.renamedAll_eq_map]
  exact .foldlM (fun s _ => s.renames_eval hi) _

end

/-! ### Runs -/

theorem Resolution.functionFor_renamed (ρ : Renaming) (r : Resolution) (id : NodeId) :
    (r.renamed ρ).functionFor? id = (r.functionFor? id).map (Statement.renamedAll ρ) := by
  have hs : (r.renamed ρ).symbolFor? id = (r.symbolFor? id).map (Symbol.renamed ρ) := by
    rw [symbolFor?, symbolFor?, Option.map_bind]
    exact Option.bind_congr fun i _ => r.symbols.get_renamed i
  rw [functionFor?, functionFor?, hs]
  rcases r.symbolFor? id with _ | ⟨name, body | _⟩
  all_goals rfl

theorem Resolution.renames_invoke (ρ : Renaming) (r : Resolution) (shell : Shell) (calls : Nat)
    (id : NodeId) (name : String) :
    Eval.Renames ρ (r.invoke shell calls id name)
      ((r.renamed ρ).invoke shell calls id (ρ.apply name)) := by
  -- By induction on the calls that are left.
  induction calls generalizing id name with
  | zero =>
    rw [invoke, invoke, functionFor_renamed]
    cases r.functionFor? id with
    | none => exact .throw (.unresolvedCall name)
    | some body => exact .throw (.callDepthExceeded name maxCallDepth)
  | succ calls ih =>
    rw [invoke, invoke, functionFor_renamed]
    cases r.functionFor? id with
    | none => exact .throw (.unresolvedCall name)
    | some body => exact Statement.renames_evalAll ih body

/-- A renamed program resolves to the renamed resolution, with the same ids, links and warnings, or
fails in the same way for the other name. Run in the renamed resolution and on the renamed machine,
it gives the same value, or the same error with the other name in it, and leaves the same output and
the renamed variables. -/
theorem resolve_and_run_renamed (ρ : Renaming) (p : Program) :
    (p.renamed ρ).resolve =
        ((p.resolve.1.map (Resolution.renamed ρ)).mapError (ResolveError.renamed ρ),
          p.resolve.2) ∧
      ∀ (shell : Shell) (r : Resolution) (m : Machine),
        (p.renamed ρ).run shell (r.renamed ρ) (m.renamed ρ) =
          ((p.run shell r m).1.mapError (RuntimeError.renamed ρ),
            (p.run shell r m).2.renamed ρ) :=
  ⟨p.resolve_renamed, fun shell r m =>
    Statement.renames_evalAll (r.renames_invoke ρ shell maxCallDepth) p.statements m⟩

def printCall (x f : String) : Program :=
  ⟨[.variable x "any" (some (.integer 7)),
    .function f [.expression (.call 0 "print" [.variable 1 x])],
    .expression (.call 2 f [])]⟩

/-- The variable and the function change names. -/
theorem resolve_and_run_renamed_printCall :
    ∃ r, (printCall "a" "f").resolve.1 = .ok r ∧
      (printCall "f" "a").resolve.1 = .ok (r.renamed (.swap "a" "f" rfl rfl)) ∧
      ((printCall "a" "f").run (fun _ => .ok {}) r {}).1 = .ok (.int 0) ∧
      ((printCall "a" "f").run (fun _ => .ok {}) r {}).2.environment.get? "a" = some (.int 7) ∧
      ((printCall "a" "f").run (fun _ => .ok {}) r {}).2.output.bytes = "7\n".toUTF8 ∧
      (printCall "f" "a").run (fun _ => .ok {}) (r.renamed (.swap "a" "f" rfl rfl)) {} =
        (.ok (.int 0),
          ((printCall "a" "f").run (fun _ => .ok {}) r {}).2.renamed (.swap "a" "f" rfl rfl)) := by
  obtain ⟨hr, hrun⟩ := resolve_and_run_renamed (.swap "a" "f" rfl rfl) (printCall "a" "f")
  exact ⟨_, rfl, congrArg Prod.fst hr, rfl, rfl, rfl, hrun (fun _ => .ok {}) _ {}⟩

end FlatScript
