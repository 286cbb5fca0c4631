import Mathlib.Data.Set.Card
import FlatScript.Proofs.CallChain

namespace FlatScript

/-! ### The names that are set -/

/-- Running the statements, apart from the bodies that they call, can set the name. -/
inductive Statement.SetsAmong (ss : List Statement) (name : String) : Prop
  | declared {typeName : String} {e : Expr} (h : .variable name typeName (some e) ∈ ss)
  | assigned {op : Operator} {id : NodeId} {right : Expr} (ho : op.isAssignment = true)
      (h : Statement.EvaluatesAmong ss (.binary op (.variable id name) right))

/-- Running the statements can set the name. -/
def Resolution.Sets (r : Resolution) (ss : List Statement) (name : String) : Prop :=
  ∃ cs body, r.CallChain ss cs body ∧ Statement.SetsAmong body name

theorem Statement.SetsAmong.sets {ss : List Statement} {name : String}
    (h : Statement.SetsAmong ss name) (r : Resolution) : r.Sets ss name :=
  ⟨[], ss, .nil ss, h⟩

theorem Resolution.Sets.of_call {r : Resolution} {ss body : List Statement} {id : NodeId}
    {name set : String} {args : List Expr} (h : r.Sets body set) (hb : isBuiltin name = false)
    (hc : Statement.EvaluatesAmong ss (.call id name args)) (hf : r.functionFor? id = some body) :
    r.Sets ss set := by
  obtain ⟨cs, last, hcs, hs⟩ := h
  exact ⟨(id, name) :: cs, last, .cons hb hc hf hcs, hs⟩

theorem Resolution.sets_iff {r : Resolution} {ss : List Statement} {name : String} :
    r.Sets ss name ↔ Statement.SetsAmong ss name ∨ ∃ id f args body, isBuiltin f = false ∧
      Statement.EvaluatesAmong ss (.call id f args) ∧ r.functionFor? id = some body ∧
        r.Sets body name := by
  constructor
  · rintro ⟨cs, last, hcs, hs⟩
    cases hcs with
    | nil => exact .inl hs
    | cons hb hc hf h => exact .inr ⟨_, _, _, _, hb, hc, hf, _, last, h, hs⟩
  · rintro (h | ⟨id, f, args, body, hb, hc, hf, h⟩)
    · exact h.sets r
    · exact h.of_call hb hc hf

/-! ### Environments that differ in some names -/

namespace Environment

/-- The second environment differs from the first one in names among `names` only, and all that is
set in the first one is set in it. -/
structure Evolves (names : String → Prop) (env env' : Environment) : Prop where
  get?_eq : ∀ name, ¬ names name → env'.get? name = env.get? name
  isSet : ∀ name, env.isSet name = true → env'.isSet name = true

variable {names : String → Prop} {env env' env'' : Environment}

theorem Evolves.refl (names : String → Prop) (env : Environment) : env.Evolves names env :=
  ⟨fun _ _ => rfl, fun _ h => h⟩

theorem Evolves.trans (h : env.Evolves names env') (h' : env'.Evolves names env'') :
    env.Evolves names env'' :=
  ⟨fun name hn => (h'.get?_eq name hn).trans (h.get?_eq name hn),
    fun name hs => h'.isSet name (h.isSet name hs)⟩

theorem evolves_set {name : String} (h : names name) (env : Environment) (value : Value) :
    env.Evolves names (env.set name value) := by
  refine ⟨fun other ho => ?_, fun other hs => ?_⟩
  · have hne : other ≠ name := fun he => ho (he ▸ h)
    rw [get?, set, find_setEntry_ne hne, get?]
  · rw [isSet_set, hs, Bool.or_true]

theorem coe_keys (env : Environment) :
    ((env.entries.map Prod.fst).toFinset : Set String) = {name | env.isSet name = true} := by
  ext name
  rw [Finset.mem_coe, List.mem_toFinset, Set.mem_ofPred_eq, isSet_iff]

theorem finite_isSet (env : Environment) : {name | env.isSet name = true}.Finite :=
  env.coe_keys ▸ Finset.finite_toSet _

/-- An environment has as many entries as names that are set. -/
theorem size_eq_ncard (env : Environment) : env.size = {name | env.isSet name = true}.ncard := by
  rw [← coe_keys, Set.ncard_coe_finset, List.toFinset_card_of_nodup env.nodup, List.length_map,
    size]

theorem Evolves.size_eq (h : env.Evolves names env') :
    env'.size = env.size + {name | env.isSet name = false ∧ env'.isSet name = true}.ncard := by
  have hu : {name | env'.isSet name = true} = {name | env.isSet name = true} ∪
      {name | env.isSet name = false ∧ env'.isSet name = true} := by
    ext name
    rw [Set.mem_union, Set.mem_ofPred_eq, Set.mem_ofPred_eq, Set.mem_ofPred_eq]
    cases hs : env.isSet name with
    | false => simp
    | true => simp [h.isSet name hs]
  have hd : Disjoint {name | env.isSet name = true}
      {name | env.isSet name = false ∧ env'.isSet name = true} := by
    rw [Set.disjoint_left]
    intro name hs hn
    exact absurd (hs.symm.trans hn.1) (by decide)
  have hf := env'.finite_isSet.subset fun name (hn : env.isSet name = false ∧ _) => hn.2
  rw [size_eq_ncard, hu, Set.ncard_union_eq hd env.finite_isSet hf, ← size_eq_ncard]

end Environment

/-! ### Steps that set some names -/

namespace Eval

variable {α β : Type} {names : String → Prop} {x : Eval α} {f : α → Eval β}

def Confined (names : String → Prop) (x : Eval α) : Prop :=
  ∀ m : Machine, m.environment.Evolves names (x.run m).2.environment

theorem confined_of_eq (h : ∀ m : Machine, (x.run m).2.environment = m.environment) :
    x.Confined names := by
  intro m
  rw [h]
  exact .refl names m.environment

theorem confined_pure (a : α) : (pure a : Eval α).Confined names := confined_of_eq fun _ => rfl

theorem confined_throw (e : RuntimeError) : (throw e : Eval α).Confined names :=
  confined_of_eq fun _ => rfl

theorem confined_ofExcept (r : Except RuntimeError α) : (liftM r : Eval α).Confined names :=
  confined_of_eq fun _ => rfl

theorem Confined.bind (hx : x.Confined names) (hf : ∀ a, (f a).Confined names) :
    (x >>= f).Confined names := by
  intro m
  have hm := hx m
  rw [run_bind]
  rcases hr : x.run m with ⟨e | a, m'⟩
  · rwa [hr] at hm
  · rw [hr] at hm
    exact hm.trans (hf a m')

theorem confined_foldlM {ι : Type} {g : ι → Eval α} {is : List ι} (a : α)
    (h : ∀ i ∈ is, (g i).Confined names) : (is.foldlM (fun _ i => g i) a).Confined names := by
  induction is generalizing a with
  | nil => exact confined_pure a
  | cons i is ih =>
    rw [List.forall_mem_cons] at h
    rw [List.foldlM_cons]
    exact h.1.bind fun a => ih a h.2

end Eval

section Steps

open Eval

variable {names : String → Prop} {name : String}

theorem confined_lookupVariable (name : String) : (lookupVariable name).Confined names :=
  confined_of_eq fun _ => rfl

theorem confined_setVariable (h : names name) (value : Value) :
    (setVariable name value).Confined names :=
  fun m => Environment.evolves_set h m.environment value

theorem confined_writeOutput (text : String) : (writeOutput text).Confined names :=
  confined_of_eq fun m => by rw [run_writeOutput]

theorem confined_builtin (shell : Shell) (b : Builtin) (args : List Value) :
    (b.run shell args).Confined names := by
  have hw : ∀ text, (do writeOutput text; return .int 0 : Eval Value).Confined names :=
    fun text => (confined_writeOutput text).bind fun _ => confined_pure _
  cases b with
  | print => exact hw _
  | printf =>
    cases args with
    | nil => exact hw _
    | cons => exact hw _
  | exec =>
    simp only [Builtin.run, Builtin.runExec]
    split
    · exact confined_pure _
    · exact confined_throw _

theorem confined_assignVariable (h : names name) (op : Operator) (value : Value) :
    (assignVariable op name value).Confined names :=
  (confined_lookupVariable name).bind fun _ => (confined_ofExcept _).bind fun stored =>
    (confined_setVariable h stored).bind fun _ => confined_pure stored

end Steps

/-! ### Evaluation -/

section Evaluation

open Eval

variable {shell : Shell} {invoke : NodeId → String → Eval Value} {names : String → Prop}

/-- If the expression is an assignment, it is to a name among `names`, and if it is a call of a
declared function, it sets such names only. -/
def Expr.KeepsTo (names : String → Prop) (invoke : NodeId → String → Eval Value) : Expr → Prop
  | .binary op (.variable _ name) _ => op.isAssignment = true → names name
  | .call id name _ => isBuiltin name = false → (invoke id name).Confined names
  | _ => True

mutual

theorem Expr.confined_eval : ∀ {e : Expr}, (∀ e', e.Evaluates e' → e'.KeepsTo names invoke) →
    (e.eval shell invoke).Confined names
  | .string _, _ | .integer _, _ | .decimal _, _ | .boolean _, _ | .null, _ => confined_pure _
  | .variable _ name, _ => confined_lookupVariable name
  | .externalCall _ _ _, _ => confined_throw _
  | .call id name args, h => by
    cases hb : isBuiltin name with
    | false =>
      rw [Expr.eval_call hb]
      exact h _ (.self _) hb
    | true =>
      obtain ⟨b, hb'⟩ := Option.isSome_iff_exists.1 hb
      have ha := Expr.confined_evalAll fun e he e' hp => h e' (.argument hb he hp)
      rw [Expr.eval, hb']
      exact ha.bind fun values => confined_builtin shell b values
  | .binary op left right, h => by
    have hr := Expr.confined_eval fun e' hp => h e' (.right hp)
    rw [Expr.eval_binary]
    split
    next ho =>
      split
      next id name =>
        have hn : names name := h _ (.self _) ho
        exact hr.bind fun value => confined_assignVariable hn op value
      next => exact confined_throw _
    next ho =>
      have hl := Expr.confined_eval fun e' hp => h e' (.left ((Bool.not_eq_true _).mp ho) hp)
      exact hl.bind fun l => hr.bind fun r => confined_ofExcept _

theorem Expr.confined_evalAll : ∀ {es : List Expr},
    (∀ e ∈ es, ∀ e', e.Evaluates e' → e'.KeepsTo names invoke) →
    (Expr.evalAll shell invoke es).Confined names
  | [], _ => confined_pure _
  | e :: es, h => by
    rw [List.forall_mem_cons] at h
    rw [Expr.evalAll]
    exact (Expr.confined_eval h.1).bind fun value =>
      (Expr.confined_evalAll h.2).bind fun values => confined_pure _

end

theorem Statement.confined_eval {s : Statement}
    (hd : ∀ name typeName e, s = .variable name typeName (some e) → names name)
    (h : ∀ e, s.Evaluates e → e.KeepsTo names invoke) : (s.eval shell invoke).Confined names := by
  match s with
  | .importFile _ | .function _ _ | .variable _ _ none => exact confined_pure _
  | .variable name typeName (some e) =>
    rw [Statement.eval]
    exact (Expr.confined_eval fun e' hp => h e' (.init hp)).bind fun value =>
      (confined_setVariable (hd _ _ _ rfl) value).bind fun _ => confined_pure value
  | .expression e => exact Expr.confined_eval fun e' hp => h e' (.expression hp)

theorem Statement.confined_evalAll {ss : List Statement}
    (hs : ∀ name, Statement.SetsAmong ss name → names name)
    (hc : ∀ id name args, Statement.EvaluatesAmong ss (.call id name args) →
      isBuiltin name = false → (invoke id name).Confined names) :
    (Statement.evalAll shell invoke ss).Confined names := by
  refine confined_foldlM .nil fun s hm => Statement.confined_eval ?_ fun e he => ?_
  · rintro name typeName e rfl
    exact hs name (.declared hm)
  · unfold Expr.KeepsTo
    split
    next => exact fun ho => hs _ (.assigned ho ⟨s, hm, he⟩)
    next => exact hc _ _ _ ⟨s, hm, he⟩
    next => trivial

variable {r : Resolution}

theorem Resolution.confined_evalAll {ss : List Statement} (h : ∀ name, r.Sets ss name → names name)
    (calls : Nat) : (Statement.evalAll shell (r.invoke shell calls) ss).Confined names := by
  -- By induction on the calls that are left.
  induction calls generalizing ss with
  | zero =>
    refine Statement.confined_evalAll (fun name hs => h name (hs.sets r)) fun id name args _ _ => ?_
    rw [invoke]
    split
    · exact confined_throw _
    · exact confined_throw _
  | succ calls ih =>
    refine Statement.confined_evalAll (fun name hs => h name (hs.sets r))
      fun id name args hc hb => ?_
    rw [invoke]
    split
    next => exact confined_throw _
    next body hf => exact ih fun set hs => h set (hs.of_call hb hc hf)

end Evaluation

/-- Whatever a run ends in, the names that it cannot set are as they were, none that was set is
unset, and the environment has grown by the number of names that have become set. -/
theorem run_frame (p : Program) (shell : Shell) (r : Resolution) (m : Machine) :
    (∀ name, ¬ r.Sets p.statements name →
      (p.run shell r m).2.environment.get name = m.environment.get name ∧
        (p.run shell r m).2.environment.isSet name = m.environment.isSet name) ∧
    (∀ name, m.environment.isSet name = true →
      (p.run shell r m).2.environment.isSet name = true) ∧
    (p.run shell r m).2.environment.size = m.environment.size +
      {name | m.environment.isSet name = false ∧
        (p.run shell r m).2.environment.isSet name = true}.ncard := by
  have h : m.environment.Evolves (r.Sets p.statements) (p.run shell r m).2.environment :=
    Resolution.confined_evalAll (fun _ hs => hs) maxCallDepth m
  refine ⟨fun name hn => ?_, h.isSet, h.size_eq⟩
  have hg := h.get?_eq name hn
  rw [Environment.get, Environment.isSet, hg]
  exact ⟨rfl, rfl⟩

def deadAssignment : Program :=
  ⟨[.variable "y" "any" (some (.integer 1)),
    .expression (.call 2 "g" [.binary .assign (.variable 3 "x") (.integer 2)])]⟩

theorem evaluatesAmong_deadAssignment {e : Expr}
    (h : Statement.EvaluatesAmong deadAssignment.statements e) :
    e = .integer 1 ∨ e = .call 2 "g" [.binary .assign (.variable 3 "x") (.integer 2)] := by
  obtain ⟨s, hs, he⟩ := h
  rw [deadAssignment, List.mem_cons, List.mem_singleton] at hs
  rcases hs with rfl | rfl
  · cases he with
    | init he =>
      cases he
      exact .inl rfl
  · cases he with
    | expression he =>
      cases he with
      | self => exact .inr rfl
      | argument hb => exact absurd hb (by decide)

theorem not_sets_integer (r : Resolution) (n : Int64) (name : String) :
    ¬ r.Sets [.expression (.integer n)] name := by
  have he : ∀ {e}, Statement.EvaluatesAmong [.expression (.integer n)] e → e = .integer n := by
    rintro e ⟨s, hs, he⟩
    obtain rfl := List.mem_singleton.1 hs
    cases he with
    | expression he =>
      cases he
      rfl
  rw [Resolution.sets_iff]
  rintro (h | ⟨id, f, args, body, -, hc, -⟩)
  · cases h with
    | declared h => simp at h
    | assigned _ h => exact nomatch he h
  · exact nomatch he hc

theorem not_sets_deadAssignment : ¬ selfCallLinks.Sets deadAssignment.statements "x" := by
  rw [Resolution.sets_iff]
  rintro (h | ⟨id, f, args, body, -, hc, hf, h⟩)
  · cases h with
    | declared h => simp [deadAssignment] at h
    | assigned _ h => rcases evaluatesAmong_deadAssignment h with h | h <;> cases h
  · rcases evaluatesAmong_deadAssignment hc with hc | hc
    · cases hc
    · cases hc
      obtain rfl : [.expression (.integer 1)] = body := Option.some.inj hf
      exact not_sets_integer _ _ _ h

theorem run_frame_deadAssignment :
    ¬ selfCallLinks.Sets deadAssignment.statements "x" ∧
      (deadAssignment.run (fun _ => .ok {}) selfCallLinks {}).2.environment.isSet "x" = false ∧
      (deadAssignment.run (fun _ => .ok {}) selfCallLinks {}).2.environment.isSet "y" = true := by
  have h := (run_frame deadAssignment (fun _ => .ok {}) selfCallLinks {}).1 "x"
    not_sets_deadAssignment
  exact ⟨not_sets_deadAssignment, h.2, rfl⟩

end FlatScript
