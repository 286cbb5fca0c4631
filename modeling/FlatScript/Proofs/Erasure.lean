import FlatScript.Proofs.Evaluated

namespace FlatScript

mutual

/-- The expression without the arguments that are not evaluated. -/
def Expr.erased : Expr → Expr
  | .call id name args => .call id name (if isBuiltin name then Expr.erasedAll args else [])
  | .externalCall module function _ => .externalCall module function []
  | .binary op left right => .binary op left.erased right.erased
  | e => e

def Expr.erasedAll : List Expr → List Expr
  | [] => []
  | e :: es => e.erased :: Expr.erasedAll es

end

mutual

def Statement.erased : Statement → Statement
  | .importFile _ => .importFile ""
  | .function name body => .function name (Statement.erasedAll body)
  | .variable name _ init => .variable name "" (init.map Expr.erased)
  | .expression e => .expression e.erased

def Statement.erasedAll : List Statement → List Statement
  | [] => []
  | s :: ss => s.erased :: Statement.erasedAll ss

end

def Program.erased (p : Program) : Program := ⟨Statement.erasedAll p.statements⟩

/-- Each number is linked to bodies that differ in what is erased only, or to no body by either. -/
def Resolution.LinksAlike (r r' : Resolution) : Prop :=
  ∀ id, (r.functionFor? id).map Statement.erasedAll = (r'.functionFor? id).map Statement.erasedAll

section

variable {shell : Shell} {invoke : NodeId → String → Eval Value}

mutual

theorem Expr.eval_erased : ∀ e : Expr, e.erased.eval shell invoke = e.eval shell invoke
  | .string _ | .integer _ | .decimal _ | .boolean _ | .null | .variable _ _
  | .externalCall _ _ _ => rfl
  | .call id name args => by
    rw [Expr.erased]
    cases hb : isBuiltin name with
    | false => rw [Expr.eval_call hb, Expr.eval_call hb]
    | true => rw [if_pos rfl, Expr.eval, Expr.evalAll_erased args, ← Expr.eval]
  | .binary op left right => by
    rw [Expr.erased, Expr.eval_binary, Expr.eval_binary, Expr.eval_erased left,
      Expr.eval_erased right]
    -- The target of an assignment keeps its name, and anything else stays no target.
    cases left with
    | _ => rfl

theorem Expr.evalAll_erased : ∀ es : List Expr,
    Expr.evalAll shell invoke (Expr.erasedAll es) = Expr.evalAll shell invoke es
  | [] => rfl
  | e :: es => by
    rw [Expr.erasedAll, Expr.evalAll, Expr.evalAll, Expr.eval_erased e, Expr.evalAll_erased es]

end

theorem Statement.eval_erased (s : Statement) :
    s.erased.eval shell invoke = s.eval shell invoke := by
  cases s with
  | importFile => rfl
  | function name body => rw [Statement.erased, Statement.eval, Statement.eval]
  | «variable» name typeName init =>
    cases init with
    | none => rfl
    | some e =>
      rw [Statement.erased, Option.map_some, Statement.eval, Statement.eval, Expr.eval_erased]
  | expression e => exact Expr.eval_erased e

theorem Statement.evalAll_erased (ss : List Statement) :
    Statement.evalAll shell invoke (Statement.erasedAll ss) =
      Statement.evalAll shell invoke ss := by
  unfold Statement.evalAll
  generalize Value.nil = last
  induction ss generalizing last with
  | nil => rfl
  | cons s ss ih =>
    rw [Statement.erasedAll, List.foldlM_cons, List.foldlM_cons, Statement.eval_erased]
    simp only [ih]

theorem Statement.evalAll_eq_of_erased_eq {ss ss' : List Statement}
    (h : Statement.erasedAll ss = Statement.erasedAll ss') :
    Statement.evalAll shell invoke ss = Statement.evalAll shell invoke ss' := by
  rw [← Statement.evalAll_erased ss, h, Statement.evalAll_erased]

end

namespace Resolution

variable {r r' : Resolution}

theorem LinksAlike.exists_body (h : r.LinksAlike r') (id : NodeId) :
    (r.functionFor? id = none ∧ r'.functionFor? id = none) ∨
      ∃ body body', r.functionFor? id = some body ∧ r'.functionFor? id = some body' ∧
        Statement.erasedAll body = Statement.erasedAll body' := by
  have hid := h id
  cases hf : r.functionFor? id with
  | none =>
    rw [hf, Option.map_none, eq_comm, Option.map_eq_none_iff] at hid
    exact .inl ⟨rfl, hid⟩
  | some body =>
    rw [hf, Option.map_some, eq_comm, Option.map_eq_some_iff] at hid
    obtain ⟨body', hf', hb⟩ := hid
    exact .inr ⟨body, body', rfl, hf', hb.symm⟩

theorem LinksAlike.invoke_eq (h : r.LinksAlike r') (shell : Shell) (calls : Nat) :
    r.invoke shell calls = r'.invoke shell calls := by
  -- By induction on the calls that are left: the bodies that are run differ in what is erased only.
  induction calls with
  | zero =>
    funext id name
    rw [invoke, invoke]
    obtain ⟨hf, hf'⟩ | ⟨body, body', hf, hf', -⟩ := h.exists_body id
    · rw [hf, hf']
    · rw [hf, hf']
  | succ calls ih =>
    funext id name
    rw [invoke, invoke]
    obtain ⟨hf, hf'⟩ | ⟨body, body', hf, hf', hb⟩ := h.exists_body id
    · rw [hf, hf']
    · rw [hf, hf']
      dsimp only
      rw [ih, Statement.evalAll_eq_of_erased_eq hb]

end Resolution

/-- Programs that differ in the types of variables, the paths of imports, and the arguments of
external calls and of calls of declared functions only, and are linked to bodies that differ in
nothing else either, end alike on every machine: in the same value or error, with the same
environment and the same output. -/
theorem run_eq_of_erased_eq {p p' : Program} {r r' : Resolution} (hp : p.erased = p'.erased)
    (hr : r.LinksAlike r') (shell : Shell) (m : Machine) :
    p.run shell r m = p'.run shell r' m := by
  have hs : Statement.erasedAll p.statements = Statement.erasedAll p'.statements :=
    congrArg Program.statements hp
  rw [Program.run, hr.invoke_eq, Statement.evalAll_eq_of_erased_eq hs, Program.run]

def importAndCall (path typeName : String) (args : List Expr) : Program :=
  ⟨[.importFile path, .function "f" [.variable "y" typeName (some (.integer 1))],
    .expression (.call 0 "f" args)]⟩

def importAndCallLinks (typeName : String) : Resolution :=
  ⟨⟨[⟨"f", .function [.variable "y" typeName (some (.integer 1))]⟩]⟩, [(0, 0)]⟩

theorem linksAlike_importAndCall (typeName typeName' : String) :
    (importAndCallLinks typeName).LinksAlike (importAndCallLinks typeName') := by
  intro id
  cases id with
  | zero => rfl
  | succ id => rfl

/-- An argument that would overwrite the variable, and one that would fail, change nothing. -/
theorem run_eq_importAndCall :
    (importAndCall "a.rs" "any" []).run (fun _ => .ok {}) (importAndCallLinks "any") {} =
      (importAndCall "b.rs" "int" [.binary .assign (.variable 1 "y") (.integer 2),
        .binary .divide (.integer 1) (.integer 0)]).run (fun _ => .ok {})
          (importAndCallLinks "int") {} ∧
    ((importAndCall "a.rs" "any" []).run (fun _ => .ok {}) (importAndCallLinks "any") {}).1 =
      .ok (.int 1) :=
  ⟨run_eq_of_erased_eq rfl (linksAlike_importAndCall _ _) _ _, rfl⟩

end FlatScript
