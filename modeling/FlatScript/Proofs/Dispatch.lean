import FlatScript.Proofs.Evaluated
import FlatScript.Proofs.Linking
import FlatScript.Proofs.Parsing

namespace FlatScript

section Congruence

variable {shell : Shell} {invoke invoke' : NodeId → String → Eval Value}

/-- Two ways to run the calls of declared functions do the same for the calls among `ms`. -/
def AgreeOn (invoke invoke' : NodeId → String → Eval Value) (ms : List Mention) : Prop :=
  ∀ id name, ⟨id, name, .call⟩ ∈ ms → Builtin.ofName? name = none → invoke id name = invoke' id name

theorem AgreeOn.mono {ms ms' : List Mention} (h : AgreeOn invoke invoke' ms') (hs : ms ⊆ ms') :
    AgreeOn invoke invoke' ms :=
  fun id name hm => h id name (hs hm)

mutual

theorem Expr.eval_congr : ∀ {e : Expr}, AgreeOn invoke invoke' e.mentions →
    e.eval shell invoke = e.eval shell invoke'
  | .string _, _ | .integer _, _ | .decimal _, _ | .boolean _, _ | .null, _ | .variable _ _, _
  | .externalCall _ _ _, _ => rfl
  | .call id name args, h => by
    rw [Expr.mentions] at h
    have ha : Expr.evalAll shell invoke args = Expr.evalAll shell invoke' args :=
      Expr.evalAll_congr (h.mono (List.subset_cons_self _ _))
    rw [Expr.eval, Expr.eval, ha]
    split
    next => rfl
    next hb => exact h id name List.mem_cons_self hb
  | .binary op left right, h => by
    rw [Expr.mentions] at h
    have hl := Expr.eval_congr (e := left) (h.mono (List.subset_append_left _ _))
    have hr := Expr.eval_congr (e := right) (h.mono (List.subset_append_right _ _))
    rw [Expr.eval_binary, Expr.eval_binary, hl, hr]

theorem Expr.evalAll_congr : ∀ {es : List Expr}, AgreeOn invoke invoke' (Expr.mentionsAll es) →
    Expr.evalAll shell invoke es = Expr.evalAll shell invoke' es
  | [], _ => rfl
  | e :: es, h => by
    rw [Expr.mentionsAll] at h
    have he := Expr.eval_congr (e := e) (h.mono (List.subset_append_left _ _))
    have hes : Expr.evalAll shell invoke es = Expr.evalAll shell invoke' es :=
      Expr.evalAll_congr (h.mono (List.subset_append_right _ _))
    rw [Expr.evalAll, Expr.evalAll, he, hes]

end

theorem Statement.eval_congr {s : Statement} (h : AgreeOn invoke invoke' s.mentions) :
    s.eval shell invoke = s.eval shell invoke' := by
  match s, h with
  | .importFile _, _ | .function _ _, _ | .variable _ _ none, _ => rfl
  | .variable name typeName (some e), h =>
    rw [Statement.eval, Statement.eval, Expr.eval_congr h]
  | .expression e, h => exact Expr.eval_congr h

theorem Statement.evalAll_congr {ss : List Statement}
    (h : AgreeOn invoke invoke' (Statement.mentionsAll ss)) :
    Statement.evalAll shell invoke ss = Statement.evalAll shell invoke' ss := by
  unfold Statement.evalAll
  generalize Value.nil = last
  induction ss generalizing last with
  | nil => rfl
  | cons s ss ih =>
    rw [Statement.mentionsAll] at h
    have hs : s.eval shell invoke = s.eval shell invoke' :=
      Statement.eval_congr (h.mono (List.subset_append_left _ _))
    have hss := ih (h.mono (List.subset_append_right _ _))
    rw [List.foldlM_cons, List.foldlM_cons, hs]
    simp only [hss]

end Congruence

section Errors

variable {α : Type} {shell : Shell} {invoke : NodeId → String → Eval Value}

def Eval.Resolves (x : Eval α) : Prop :=
  ∀ m name, (x.run m).1 ≠ .error (.unresolvedCall name)

theorem Eval.Resolves.throw {e : RuntimeError} (h : ∀ name, e ≠ .unresolvedCall name) :
    Resolves (MonadExcept.throw e : Eval α) := fun _ name he => h name (Except.error.inj he)

/-- No call among `ms` of what is no builtin fails for finding no function. -/
def ResolvesOn (invoke : NodeId → String → Eval Value) (ms : List Mention) : Prop :=
  ∀ id name, ⟨id, name, .call⟩ ∈ ms → Builtin.ofName? name = none → (invoke id name).Resolves

theorem ResolvesOn.mono {ms ms' : List Mention} (h : ResolvesOn invoke ms') (hs : ms ⊆ ms') :
    ResolvesOn invoke ms :=
  fun id name hm => h id name (hs hm)

theorem Statement.resolves_evalAll {ss : List Statement}
    (h : ResolvesOn invoke (Statement.mentionsAll ss)) :
    (Statement.evalAll shell invoke ss).Resolves := by
  intro m name he
  obtain ⟨id, name', args, hp, hb, m', hf⟩ :=
    Statement.exists_call_of_fails (.unresolved name) ⟨m, he⟩
  exact h id name' hp.mem_mentionsAll (isBuiltin_eq_false_iff.1 hb) m' name hf

end Errors

namespace Program

/-- Runs the function of a name with `calls` calls left, whatever its call is linked to. -/
def invoke (p : Program) (shell : Shell) (calls : Nat) (name : String) : Eval Value :=
  match p.function? name with
  | none => throw (.unresolvedCall name)
  | some body =>
    match calls with
    | 0 => throw (.callDepthExceeded name maxCallDepth)
    | calls + 1 => Statement.evalAll shell (fun _ => p.invoke shell calls) body

/-- Runs a program by the names of its calls alone. -/
def runByName (p : Program) (shell : Shell) (m : Machine) : Except RuntimeError Value × Machine :=
  (Statement.evalAll shell (fun _ => p.invoke shell maxCallDepth) p.statements).run m

variable {p : Program} {r : Resolution}

theorem mentionsAll_subset (h : p.resolve.1 = .ok r) {name : String} {body : List Statement}
    (hf : p.function? name = some body) :
    Statement.mentionsAll body ⊆ Statement.mentionsAll p.statements :=
  fun _ hm => Statement.mentionsAll_of_mem_declarationsAll hm ((function_eq_some_iff h).1 hf)

variable (hr : p.resolve.1 = .ok r)
  (hn : ((Statement.mentionsAll p.statements).map Mention.id).Nodup) (shell : Shell) (calls : Nat)

include hr hn

theorem agreeOn_invoke :
    AgreeOn (r.invoke shell calls) (fun _ => p.invoke shell calls)
      (Statement.mentionsAll p.statements) := by
  -- The invariant is on the calls left: the bodies that are run mention only what the program
  -- mentions.
  induction calls with
  | zero =>
    intro id name hm hb
    obtain ⟨body, hid, hname⟩ := functionFor_of_mem hr hn hm hb
    change _ = p.invoke shell 0 name
    rw [Resolution.invoke, invoke, hid, hname]
  | succ calls ih =>
    intro id name hm hb
    obtain ⟨body, hid, hname⟩ := functionFor_of_mem hr hn hm hb
    change _ = p.invoke shell (calls + 1) name
    rw [Resolution.invoke, invoke, hid, hname]
    exact Statement.evalAll_congr (ih.mono (mentionsAll_subset hr hname))

theorem resolvesOn_invoke :
    ResolvesOn (r.invoke shell calls) (Statement.mentionsAll p.statements) := by
  induction calls with
  | zero =>
    intro id name hm hb
    obtain ⟨body, hid, hname⟩ := functionFor_of_mem hr hn hm hb
    rw [Resolution.invoke, hid]
    exact .throw (by simp)
  | succ calls ih =>
    intro id name hm hb
    obtain ⟨body, hid, hname⟩ := functionFor_of_mem hr hn hm hb
    rw [Resolution.invoke, hid]
    exact Statement.resolves_evalAll (ih.mono (mentionsAll_subset hr hname))

end Program

/-- Running a program that has been read and resolved runs, for each call of what is no builtin, the
body of the one function of the name that is called; no call, at whatever depth, finds none. -/
theorem run_eq_runByName {text : String} {p : Program} {r : Resolution}
    (hp : (Program.ofString text).1 = .ok p) (hr : p.resolve.1 = .ok r) (shell : Shell)
    (m : Machine) :
    p.run shell r m = p.runByName shell m ∧
      ((Statement.declarationsAll p.statements).map Symbol.name).Nodup ∧
      (∀ name, (p.run shell r m).1 ≠ .error (.unresolvedCall name)) ∧
      ∀ name body, ⟨name, .function body⟩ ∈ Statement.declarationsAll p.statements →
        ∀ calls name', ((Statement.evalAll shell (r.invoke shell calls) body).run m).1 ≠
          .error (.unresolvedCall name') := by
  have hn : ((Statement.mentionsAll p.statements).map Mention.id).Nodup := by
    rw [mentions_of_ofString hp]
    exact List.nodup_range
  refine ⟨?_, (Program.resolve_eq_ok hr).2.1, ?_, ?_⟩
  · have h := Program.agreeOn_invoke hr hn shell maxCallDepth
    rw [Program.run, Statement.evalAll_congr h, Program.runByName]
  · exact Statement.resolves_evalAll (Program.resolvesOn_invoke hr hn shell maxCallDepth) m
  · intro name body hb calls
    have hf := (Program.function_eq_some_iff hr).2 hb
    have h := Program.resolvesOn_invoke hr hn shell calls
    exact Statement.resolves_evalAll (h.mono (Program.mentionsAll_subset hr hf)) m

def innerCall (id : NodeId) : Program :=
  ⟨[.function "f" [.function "g" [.expression (.integer 1)]], .expression (.call id "g" [])]⟩

theorem ofString_innerCall :
    (Program.ofString "fn f ( ) \x7b fn g ( ) \x7b 1 ; \x7d \x7d g ( ) ; ").1 = .ok (innerCall 0) := by
  have hf : IsIdentifier "f" := ⟨by decide, by decide, by decide, by decide, by decide⟩
  have hg : IsIdentifier "g" := ⟨by decide, by decide, by decide, by decide, by decide⟩
  have h1 : Lexeme.Writes ⟨.integerLiteral, "1"⟩ (.integer 1) := .integer (n := 1) (by decide)
  have he : IsClosed [.separator ";"] := rfl
  have hb : Statement.RendersAll IsClosed 126 [.expression (.integer 1)]
      [⟨.integerLiteral, "1"⟩, .separator ";"] := .cons (.expression (.literal h1) he) .nil
  have hc : Expr.Renders 127 0 (.call 7 "g" []) [.identifier "g", .separator "(", .separator ")"] :=
    .call hg .nil
  have hr : (innerCall 7).Renders IsClosed Parser.maxNesting _ :=
    .cons (.function hf (.cons (.function hg hb) .nil)) (.cons (.expression hc he) .nil)
  have h := ofString_spaced hr
  exact h

theorem run_innerCall_eq_runByName :
    (Program.ofString "fn f ( ) \x7b fn g ( ) \x7b 1 ; \x7d \x7d g ( ) ; ").1 = .ok (innerCall 0) ∧
      (innerCall 0).resolve.1 = .ok
        ⟨⟨[⟨"f", .function [.function "g" [.expression (.integer 1)]]⟩,
          ⟨"g", .function [.expression (.integer 1)]⟩]⟩, [(0, 1)]⟩ ∧
      (innerCall 0).run (fun _ => .ok {})
        ⟨⟨[⟨"f", .function [.function "g" [.expression (.integer 1)]]⟩,
          ⟨"g", .function [.expression (.integer 1)]⟩]⟩, [(0, 1)]⟩ {} =
        (innerCall 0).runByName (fun _ => .ok {}) {} :=
  ⟨ofString_innerCall, rfl, (run_eq_runByName ofString_innerCall rfl _ _).1⟩

end FlatScript
