import Mathlib.Logic.Relation
import FlatScript.Proofs.Evaluated

namespace FlatScript

namespace Resolution

variable {r : Resolution} {ss ss' body : List Statement} {cs cs' : List (NodeId × String)}

/-- The calls `cs` lead from the statements `ss` to the body `body`: the first stands in evaluated
position of `ss`, each one behind it in that of the body that the one before is linked to, and none
of them is a call of a builtin. -/
inductive CallChain (r : Resolution) : List Statement → List (NodeId × String) → List Statement →
    Prop
  | nil (ss : List Statement) : CallChain r ss [] ss
  | cons {ss body last : List Statement} {id : NodeId} {name : String} {args : List Expr}
      {cs : List (NodeId × String)} (hb : isBuiltin name = false)
      (hc : Statement.EvaluatesAmong ss (.call id name args)) (hf : r.functionFor? id = some body)
      (h : CallChain r body cs last) : CallChain r ss ((id, name) :: cs) last

/-- The statements call the function of that body. Functions are told apart by their bodies, which
settle what they call. -/
def Calls (r : Resolution) (ss body : List Statement) : Prop := ∃ c, r.CallChain ss [c] body

theorem CallChain.append (h : r.CallChain ss cs ss') (h' : r.CallChain ss' cs' body) :
    r.CallChain ss (cs ++ cs') body := by
  induction h with
  | nil => exact h'
  | cons hb hc hf _ ih => exact .cons hb hc hf (ih h')

theorem exists_callChain_of_reflTransGen (h : Relation.ReflTransGen r.Calls ss body) :
    ∃ cs, r.CallChain ss cs body := by
  induction h with
  | refl => exact ⟨[], .nil ss⟩
  | tail _ hc ih =>
    obtain ⟨c, hc⟩ := hc
    obtain ⟨cs, hcs⟩ := ih
    exact ⟨cs ++ [c], hcs.append hc⟩

theorem exists_callChain_of_transGen (h : Relation.TransGen r.Calls ss body) :
    ∃ cs, cs ≠ [] ∧ r.CallChain ss cs body := by
  obtain ⟨_, ⟨c, hc⟩, h⟩ := Relation.TransGen.head'_iff.1 h
  obtain ⟨cs, hcs⟩ := exists_callChain_of_reflTransGen h
  exact ⟨[c] ++ cs, by simp, hc.append hcs⟩

/-- A chain may go round a cycle any number of times. -/
theorem exists_callChain_of_cycle (h : Relation.TransGen r.Calls body body) (n : Nat) :
    ∃ cs, n ≤ cs.length ∧ r.CallChain body cs body := by
  induction n with
  | zero => exact ⟨[], Nat.zero_le _, .nil body⟩
  | succ n ih =>
    obtain ⟨cs, hn, hcs⟩ := ih
    obtain ⟨cs', hne, hcs'⟩ := exists_callChain_of_transGen h
    refine ⟨cs ++ cs', ?_, hcs.append hcs'⟩
    have := List.length_pos_iff.2 hne
    rw [List.length_append]
    omega

theorem not_cycle_of_bound {n : Nat}
    (h : ∀ cs body, r.CallChain ss cs body → cs.length ≤ n)
    (hr : Relation.ReflTransGen r.Calls ss body) : ¬ Relation.TransGen r.Calls body body := by
  intro hc
  obtain ⟨cs, hcs⟩ := exists_callChain_of_reflTransGen hr
  obtain ⟨cs', hn, hcs'⟩ := exists_callChain_of_cycle hc (n + 1)
  have hle := h _ _ (hcs.append hcs')
  rw [List.length_append] at hle
  omega

variable {shell : Shell} {calls : Nat}

theorem length_le_of_succeeds (hc : r.CallChain ss cs body)
    (h : (Statement.evalAll shell (r.invoke shell calls) ss).Succeeds) : cs.length ≤ calls := by
  induction hc generalizing calls with
  | nil => exact Nat.zero_le _
  | cons hb hc hf _ ih =>
    -- The run makes the first call of the chain, and the body of it comes to its end too.
    have hs := hc.succeeds h
    rw [Expr.eval_call hb, invoke, hf] at hs
    cases calls with
    | zero => exact absurd hs Eval.not_succeeds_throw
    | succ calls => exact Nat.succ_le_succ (ih hs)

theorem exists_function_of_fails {id : NodeId} {name name' : String} {limit : Nat}
    (h : (r.invoke shell calls id name').Fails (.callDepthExceeded name limit)) :
    ∃ body, r.functionFor? id = some body := by
  rw [invoke] at h
  split at h
  next => simp [Eval.fails_throw_iff] at h
  next body hf => exact ⟨body, hf⟩

/-- When no call is left, as many have been made as there were. -/
theorem exists_callChain_of_fails {name : String} {limit : Nat}
    (h : (Statement.evalAll shell (r.invoke shell calls) ss).Fails
      (.callDepthExceeded name limit)) :
    limit = maxCallDepth ∧
      ∃ cs id body, r.CallChain ss (cs ++ [(id, name)]) body ∧ cs.length = calls := by
  induction calls generalizing ss with
  | zero =>
    obtain ⟨id, name', args, hc, hb, hi⟩ := Statement.exists_call_of_fails (.tooDeep _ _) h
    obtain ⟨body, hf⟩ := exists_function_of_fails hi
    rw [invoke, hf] at hi
    obtain ⟨rfl, rfl⟩ : name' = name ∧ maxCallDepth = limit := by
      simpa [Eval.fails_throw_iff] using hi
    exact ⟨rfl, [], id, body, .cons hb hc hf (.nil body), rfl⟩
  | succ calls ih =>
    obtain ⟨id, name', args, hc, hb, hi⟩ := Statement.exists_call_of_fails (.tooDeep _ _) h
    obtain ⟨body, hf⟩ := exists_function_of_fails hi
    rw [invoke, hf] at hi
    -- This call was made; it is the body of it that fails, with one call less to make.
    obtain ⟨hl, cs, id', last, hcs, hn⟩ := ih hi
    exact ⟨hl, (id, name') :: cs, id', last, .cons hb hc hf hcs, congrArg Nat.succ hn⟩

end Resolution

/-- In a program that runs to its end, no chain of calls is longer than the number of calls that may
be active at once, so that no function that it reaches calls itself, not even through others. A run
that fails for having too many calls active has followed a chain of one call more, the last of
which is the call that it fails for. -/
theorem call_chains_bounded (p : Program) (shell : Shell) (r : Resolution) (m : Machine) :
    (∀ value, (p.run shell r m).1 = .ok value →
      (∀ cs body, r.CallChain p.statements cs body → cs.length ≤ 128) ∧
      ∀ body, Relation.ReflTransGen r.Calls p.statements body →
        ¬ Relation.TransGen r.Calls body body) ∧
    ∀ name limit, (p.run shell r m).1 = .error (.callDepthExceeded name limit) →
      limit = 128 ∧ ∃ cs id body, r.CallChain p.statements (cs ++ [(id, name)]) body ∧
        (cs ++ [(id, name)]).length = 129 := by
  refine ⟨fun value h => ?_, fun name limit h => ?_⟩
  · have hb : ∀ cs body, r.CallChain p.statements cs body → cs.length ≤ maxCallDepth :=
      fun cs body hc => Resolution.length_le_of_succeeds hc ⟨m, value, h⟩
    exact ⟨hb, fun body hr => Resolution.not_cycle_of_bound hb hr⟩
  · obtain ⟨hl, cs, id, body, hc, hn⟩ := Resolution.exists_callChain_of_fails ⟨m, h⟩
    exact ⟨hl, cs, id, body, hc, by rw [List.length_append, hn]; rfl⟩

def selfCallLinks : Resolution :=
  ⟨⟨[⟨"f", .function [.expression (.call 0 "f" [])]⟩, ⟨"g", .function [.expression (.integer 1)]⟩]⟩,
    [(2, 1), (1, 0), (0, 0)]⟩

theorem functionFor_selfCall {id : NodeId} (h : id = 0 ∨ id = 1) :
    selfCallLinks.functionFor? id = some [.expression (.call 0 "f" [])] := by
  rcases h with rfl | rfl <;> rfl

theorem invoke_selfCall (shell : Shell) (calls : Nat) {id : NodeId} (h : id = 0 ∨ id = 1) :
    selfCallLinks.invoke shell calls id "f" = throw (.callDepthExceeded "f" maxCallDepth) := by
  induction calls generalizing id with
  | zero => rw [Resolution.invoke, functionFor_selfCall h]
  | succ calls ih =>
    have hb : selfCallLinks.invoke shell (calls + 1) id "f" =
        selfCallLinks.invoke shell calls 0 "f" >>= pure := by
      rw [Resolution.invoke, functionFor_selfCall h]
      rfl
    rw [hb, ih (.inl rfl)]
    rfl

theorem run_selfCall (shell : Shell) (m : Machine) :
    ((Program.mk [.expression (.call 1 "f" [])]).run shell selfCallLinks m).1 =
      .error (.callDepthExceeded "f" 128) := by
  have h : (Program.mk [.expression (.call 1 "f" [])]).run shell selfCallLinks m =
      (selfCallLinks.invoke shell maxCallDepth 1 "f" >>= pure).run m := rfl
  rw [h, invoke_selfCall shell maxCallDepth (.inr rfl)]
  rfl

theorem call_chains_bounded_selfCall :
    ((Program.mk [.expression (.call 2 "g" [])]).run (fun _ => .ok {}) selfCallLinks {}).1 =
        .ok (.int 1) ∧
      (∀ cs body, selfCallLinks.CallChain [.expression (.call 2 "g" [])] cs body →
        cs.length ≤ 128) ∧
      ((Program.mk [.expression (.call 1 "f" [])]).run (fun _ => .ok {}) selfCallLinks {}).1 =
        .error (.callDepthExceeded "f" 128) ∧
      ∃ cs id body,
        selfCallLinks.CallChain [.expression (.call 1 "f" [])] (cs ++ [(id, "f")]) body ∧
          (cs ++ [(id, "f")]).length = 129 := by
  have hg := (call_chains_bounded ⟨[.expression (.call 2 "g" [])]⟩ (fun _ => .ok {})
    selfCallLinks {}).1 (.int 1) rfl
  have hf := (call_chains_bounded ⟨[.expression (.call 1 "f" [])]⟩ (fun _ => .ok {})
    selfCallLinks {}).2 "f" 128 (run_selfCall _ _)
  exact ⟨rfl, hg.1, run_selfCall _ _, hf.2⟩

end FlatScript
