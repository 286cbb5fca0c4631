import FlatScript.Proofs.Evaluated
import Mathlib.Data.List.Forall2

namespace FlatScript

namespace Eval

variable {M : Machine → Machine → Prop} {exempt : RuntimeError → Prop} {α β γ δ : Type}
  {V : α → β → Prop} {U : γ → δ → Prop} {x : Eval α} {y : Eval β}

/-- How two runs may end: in values that are related by `V` or in the same failure, and then in
related machines; or one of them in an exempt failure, and then the other one anyhow. -/
inductive Meet (M : Machine → Machine → Prop) (exempt : RuntimeError → Prop) (V : α → β → Prop) :
    Except RuntimeError α × Machine → Except RuntimeError β × Machine → Prop
  | ok {a : α} {b : β} {m m' : Machine} (hv : V a b) (hm : M m m') :
      Meet M exempt V (.ok a, m) (.ok b, m')
  | error {e : RuntimeError} {m m' : Machine} (hm : M m m') :
      Meet M exempt V (.error e, m) (.error e, m')
  | left {e : RuntimeError} {m : Machine} {r : Except RuntimeError β × Machine} (he : exempt e) :
      Meet M exempt V (.error e, m) r
  | right {e : RuntimeError} {m : Machine} {r : Except RuntimeError α × Machine} (he : exempt e) :
      Meet M exempt V r (.error e, m)

/-- From related machines, the ends of `x` and of `y` meet. -/
def Relates (M : Machine → Machine → Prop) (exempt : RuntimeError → Prop) (V : α → β → Prop)
    (x : Eval α) (y : Eval β) : Prop :=
  ∀ m m', M m m' → Meet M exempt V (x.run m) (y.run m')

theorem Relates.bind {f : α → Eval γ} {g : β → Eval δ} (hx : Relates M exempt V x y)
    (hf : ∀ a b, V a b → Relates M exempt U (f a) (g b)) :
    Relates M exempt U (x >>= f) (y >>= g) := by
  intro m m' hm
  have h := hx m m' hm
  rw [run_bind, run_bind]
  generalize x.run m = r, y.run m' = r' at h
  cases h with
  | ok hv hm => exact hf _ _ hv _ _ hm
  | error hm => exact .error hm
  | left he => exact .left he
  | right he => exact .right he

theorem relates_pure {a : α} {b : β} (h : V a b) :
    Relates M exempt V (pure a : Eval α) (pure b : Eval β) := fun _ _ hm => .ok h hm

theorem relates_throw (e : RuntimeError) :
    Relates M exempt V (throw e : Eval α) (throw e : Eval β) := fun _ _ hm => .error hm

theorem relates_foldlM {ι : Type} {f : α → ι → Eval α} {g : β → ι → Eval β} {is : List ι}
    (h : ∀ i ∈ is, ∀ a b, V a b → Relates M exempt V (f a i) (g b i)) {a : α} {b : β}
    (hab : V a b) : Relates M exempt V (is.foldlM f a) (is.foldlM g b) := by
  induction is generalizing a b with
  | nil => exact relates_pure hab
  | cons i is ih =>
    rw [List.forall_mem_cons] at h
    rw [List.foldlM_cons, List.foldlM_cons]
    exact (h.1 a b hab).bind fun _ _ => ih h.2

end Eval

open Eval

/-- A correspondence between the machines and values of two runs, one with each shell, that the
single steps keep: looking up, setting, applying operators, and running the builtins that `runs`
tells. -/
structure Correspondence (shell shell' : Shell) where
  machine : Machine → Machine → Prop
  value : Value → Value → Prop
  exempt : RuntimeError → Prop
  runs : Builtin → Prop
  refl (v : Value) : value v v
  type_eq {v v' : Value} (h : value v v') : v.type = v'.type
  lookup (name : String) :
    Relates machine exempt value (lookupVariable name) (lookupVariable name)
  set (name : String) {v v' : Value} (h : value v v') :
    Relates machine exempt Eq (setVariable name v) (setVariable name v')
  apply (op : Operator) {l l' r r' : Value} (hl : value l l') (hr : value r r') :
    Relates machine exempt value (liftM (op.apply l r)) (liftM (op.apply l' r'))
  builtin {b : Builtin} (hb : runs b) {vs vs' : List Value} (h : List.Forall₂ value vs vs') :
    Relates machine exempt value (b.run shell vs) (b.run shell' vs')

namespace Correspondence

variable {shell shell' : Shell} (c : Correspondence shell shell')

def Relates (x y : Eval Value) : Prop := Eval.Relates c.machine c.exempt c.value x y

/-- Of the builtins, only such are called as the correspondence tells. -/
def Permits (ms : List Mention) : Prop :=
  ∀ m ∈ ms, m.role = .call → ∀ b, Builtin.ofName? m.name = some b → c.runs b

variable {c}

theorem permits_append {ms ms' : List Mention} :
    c.Permits (ms ++ ms') ↔ c.Permits ms ∧ c.Permits ms' := List.forall_mem_append

theorem permits_cons {m : Mention} {ms : List Mention} :
    c.Permits (m :: ms) ↔ c.Permits [m] ∧ c.Permits ms := by
  rw [← List.singleton_append, permits_append]

theorem relates_assigned (op : Operator) {l l' r r' : Value} (hl : c.value l l')
    (hr : c.value r r') : c.Relates (liftM (op.assigned l r)) (liftM (op.assigned l' r')) := by
  unfold Operator.assigned
  split
  · exact c.apply _ hl hr
  · split
    · exact relates_pure hr
    · rw [c.type_eq hl, c.type_eq hr]
      exact relates_throw _

theorem relates_assignVariable (op : Operator) (name : String) {v v' : Value}
    (h : c.value v v') : c.Relates (assignVariable op name v) (assignVariable op name v') :=
  (c.lookup name).bind fun _ _ hl => (relates_assigned op hl h).bind fun _ _ hs =>
    (c.set name hs).bind fun _ _ _ => relates_pure hs

section Evaluation

variable {invoke invoke' : NodeId → String → Eval Value}

mutual

theorem relates_eval (hi : ∀ id name, c.Relates (invoke id name) (invoke' id name)) :
    ∀ e : Expr, c.Permits e.mentions → c.Relates (e.eval shell invoke) (e.eval shell' invoke')
  | .string _, _ | .integer _, _ | .decimal _, _ | .boolean _, _ | .null, _ =>
    relates_pure (c.refl _)
  | .variable _ name, _ => c.lookup name
  | .externalCall _ _ _, _ => relates_throw _
  | .call id name args, hp => by
    obtain ⟨hm, hp⟩ := permits_cons.1 hp
    rw [Expr.eval, Expr.eval]
    split
    next b hb =>
      have hb : c.runs b := hm _ (List.mem_singleton_self _) rfl b hb
      exact (relates_exprs hi args hp).bind fun _ _ => c.builtin hb
    next => exact hi id name
  | .binary op left right, hp => by
    obtain ⟨hl, hr⟩ := permits_append.1 hp
    rw [Expr.eval_binary, Expr.eval_binary]
    split
    · split
      · exact (relates_eval hi right hr).bind fun _ _ => relates_assignVariable op _
      · exact relates_throw _
    · exact (relates_eval hi left hl).bind fun _ _ hl =>
        (relates_eval hi right hr).bind fun _ _ hr => c.apply op hl hr

theorem relates_exprs (hi : ∀ id name, c.Relates (invoke id name) (invoke' id name)) :
    ∀ es : List Expr, c.Permits (Expr.mentionsAll es) →
      Eval.Relates c.machine c.exempt (List.Forall₂ c.value) (Expr.evalAll shell invoke es)
        (Expr.evalAll shell' invoke' es)
  | [], _ => relates_pure .nil
  | e :: es, hp => by
    obtain ⟨he, hes⟩ := permits_append.1 hp
    rw [Expr.evalAll, Expr.evalAll]
    exact (relates_eval hi e he).bind fun _ _ hv => (relates_exprs hi es hes).bind fun _ _ hvs =>
      relates_pure (.cons hv hvs)

end

variable (hi : ∀ id name, c.Relates (invoke id name) (invoke' id name))

include hi

theorem relates_statement (s : Statement) (hp : c.Permits s.mentions) :
    c.Relates (s.eval shell invoke) (s.eval shell' invoke') := by
  match s, hp with
  | .importFile _, _ | .function _ _, _ | .variable _ _ none, _ => exact relates_pure (c.refl _)
  | .variable name _ (some e), hp =>
    rw [Statement.eval, Statement.eval]
    exact (relates_eval hi e hp).bind fun _ _ hv => (c.set name hv).bind fun _ _ _ =>
      relates_pure hv
  | .expression e, hp => exact relates_eval hi e hp

theorem relates_statements {ss : List Statement} (hp : c.Permits (Statement.mentionsAll ss)) :
    c.Relates (Statement.evalAll shell invoke ss) (Statement.evalAll shell' invoke' ss) := by
  refine relates_foldlM (fun s hs _ _ _ => relates_statement hi s fun m hm => hp m ?_) (c.refl _)
  exact Statement.mem_mentionsAll_iff.2 ⟨s, hs, hm⟩

end Evaluation

variable {r : Resolution}
  (hr : ∀ id body, r.functionFor? id = some body → c.Permits (Statement.mentionsAll body))

include hr

theorem relates_invoke (calls : Nat) (id : NodeId) (name : String) :
    c.Relates (r.invoke shell calls id name) (r.invoke shell' calls id name) := by
  -- By induction on the calls that are left: a body is run with one call less.
  induction calls generalizing id name with
  | zero =>
    rw [Resolution.invoke, Resolution.invoke]
    split
    · exact relates_throw _
    · exact relates_throw _
  | succ calls ih =>
    rw [Resolution.invoke, Resolution.invoke]
    split
    next => exact relates_throw _
    next body hb => exact relates_statements ih (hr id body hb)

theorem relates_run {p : Program} (hp : c.Permits (Statement.mentionsAll p.statements))
    {m m' : Machine} (hm : c.machine m m') :
    Meet c.machine c.exempt c.value (p.run shell r m) (p.run shell' r m') :=
  relates_statements (relates_invoke hr maxCallDepth) hp m m' hm

end Correspondence

end FlatScript
