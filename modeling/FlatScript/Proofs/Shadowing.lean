import Mathlib.Data.List.Nodup
import FlatScript.Proofs.Evaluated
import FlatScript.Proofs.Naming

namespace FlatScript

/-- While a call is left, evaluating the call runs the body that it is linked to. -/
def Resolution.RunsLinked (r : Resolution) (id : NodeId) (name : String) (args : List Expr) :
    Prop :=
  ∃ body, r.functionFor? id = some body ∧ ∀ shell calls,
    (Expr.call id name args).eval shell (r.invoke shell (calls + 1)) =
      Statement.evalAll shell (r.invoke shell calls) body

/-- No function with the name of a builtin is declared. -/
def Program.ShadowsNone (p : Program) : Prop :=
  ∀ (b : Builtin) body, ¬ p.Declares ⟨b.name, .function body⟩

namespace Resolution

variable {r : Resolution} {id : NodeId} {name : String} {args : List Expr}

theorem isLinked_of_functionFor {body : List Statement} (h : r.functionFor? id = some body) :
    r.isLinked id = true := by
  rw [functionFor?] at h
  split at h
  next hs => rw [isLinked, hs, Option.isSome_some]
  next => simp at h

theorem RunsLinked.isLinked (h : r.RunsLinked id name args) : r.isLinked id = true := by
  obtain ⟨body, hf, -⟩ := h
  exact isLinked_of_functionFor hf

theorem runsLinked_of_functionFor {body : List Statement} (h : r.functionFor? id = some body)
    (hb : isBuiltin name = false) : r.RunsLinked id name args := by
  refine ⟨body, h, fun shell calls => ?_⟩
  rw [Expr.eval_call hb, invoke, h]

end Resolution

namespace Program

variable {p : Program} {r : Resolution} {id : NodeId} {name : String} {args : List Expr}

theorem eq_of_mem_mentions (hd : p.HasDistinctIds) {m m' : Mention}
    (hm : m ∈ Statement.mentionsAll p.statements) (hm' : m' ∈ Statement.mentionsAll p.statements)
    (h : m.id = m'.id) : m = m' :=
  List.inj_on_of_nodup_map hd hm hm' h

theorem ShadowsNone.isBuiltin_eq_false (h : p.ShadowsNone) {body : List Statement}
    (hb : p.Declares ⟨name, .function body⟩) : isBuiltin name = false := by
  rw [isBuiltin_eq_false_iff, Option.eq_none_iff_forall_ne_some]
  intro b he
  obtain rfl := Builtin.name_of_ofName he
  exact h b body hb

variable (hr : p.resolve.1 = .ok r) (hd : p.HasDistinctIds)

include hr hd

theorem symbolFor_call_iff (hc : p.HasPart (.call id name args)) {s : Symbol} :
    r.symbolFor? id = some s ↔ ∃ body, s = ⟨name, .function body⟩ ∧ p.Declares s := by
  have hm := mem_mentions_iff.2 ⟨_, hc, rfl⟩
  rw [symbolFor_iff hr hd]
  constructor
  · intro h
    cases h with
    | toVariable hv =>
      exact nomatch eq_of_mem_mentions hd (mem_mentions_iff.2 ⟨_, hv, rfl⟩) hm rfl
    | toFunction hf hb =>
      cases eq_of_mem_mentions hd (mem_mentions_iff.2 ⟨_, hf, rfl⟩) hm rfl
      exact ⟨_, rfl, hb⟩
  · rintro ⟨body, rfl, hb⟩
    exact .toFunction hc hb

theorem functionFor_call_iff (hc : p.HasPart (.call id name args)) {body : List Statement} :
    r.functionFor? id = some body ↔ p.Declares ⟨name, .function body⟩ := by
  constructor
  · intro h
    rw [Resolution.functionFor?] at h
    split at h
    next name' body' hs =>
      obtain rfl : body' = body := Option.some.inj h
      obtain ⟨_, he, hb⟩ := (symbolFor_call_iff hr hd hc).1 hs
      cases he
      exact hb
    next => simp at h
  · intro hb
    rw [Resolution.functionFor?, (symbolFor_call_iff hr hd hc).2 ⟨body, rfl, hb⟩]

theorem isLinked_call_iff (hc : p.HasPart (.call id name args)) :
    r.isLinked id = true ↔ ∃ body, p.Declares ⟨name, .function body⟩ := by
  rw [Resolution.isLinked, Option.isSome_iff_exists]
  simp only [symbolFor_call_iff hr hd hc]
  constructor
  · rintro ⟨_, body, rfl, hb⟩
    exact ⟨body, hb⟩
  · rintro ⟨body, hb⟩
    exact ⟨_, body, rfl, hb⟩

theorem runsLinked_call (hc : p.HasPart (.call id name args)) (hb : isBuiltin name = false) :
    r.RunsLinked id name args := by
  have hw := exists_resolve_iff.1 ⟨r, hr⟩
  rcases hw.call_declared id name args hc with h | ⟨body, h⟩
  · exact absurd (hb.symm.trans h) (by decide)
  · exact Resolution.runsLinked_of_functionFor ((functionFor_call_iff hr hd hc).2 h) hb

theorem resolvedCount_eq :
    r.resolvedCount = (Statement.mentionsAll p.statements).countP fun m => r.isLinked m.id := by
  have hdesc := describes_of_resolve hr hd
  have hinc : (r.references.map Prod.fst).Nodup := hdesc.increasing.imp Nat.ne_of_lt
  have hsub : (((Statement.mentionsAll p.statements).filter fun m => r.isLinked m.id).map
      Mention.id).Nodup := (List.filter_sublist.map _).nodup hd
  have hp : (r.references.map Prod.fst).Perm
      (((Statement.mentionsAll p.statements).filter fun m => r.isLinked m.id).map Mention.id) := by
    refine (List.perm_ext_iff_of_nodup hinc hsub).2 fun i => ?_
    simp only [List.mem_map, List.mem_filter, Prod.exists, exists_and_right, exists_eq_right,
      hdesc.references]
    constructor
    · rintro ⟨s, hs⟩
      obtain ⟨m, hm, rfl, -⟩ := refers_iff.1 hs
      have hl : r.isLinked m.id = true :=
        Option.isSome_iff_exists.2 ⟨s, (symbolFor_iff hr hd).2 hs⟩
      exact ⟨m, ⟨hm, hl⟩, rfl⟩
    · rintro ⟨m, ⟨-, hl⟩, rfl⟩
      obtain ⟨s, hs⟩ := Option.isSome_iff_exists.1 hl
      exact ⟨s, (symbolFor_iff hr hd).1 hs⟩
  rw [← hdesc.count, List.countP_eq_length_filter, ← List.length_map (f := Prod.fst), hp.length_eq,
    List.length_map]

/-- A mention is linked unless it is a call of a builtin. -/
theorem isLinked_mention_iff (hs : p.ShadowsNone) {m : Mention}
    (hm : m ∈ Statement.mentionsAll p.statements) :
    r.isLinked m.id = true ↔ (m.role == .variable || !isBuiltin m.name) = true := by
  obtain ⟨id, name, role⟩ := m
  obtain ⟨e, hp, he⟩ := mem_mentions_iff.1 hm
  match role with
  | .variable =>
    obtain rfl := Expr.mention_eq_variable_iff.1 he
    exact iff_of_true ((isLinked_iff hr hd).2 (.inl ⟨name, hp⟩)) rfl
  | .call =>
    obtain ⟨args, rfl⟩ := Expr.mention_eq_call_iff.1 he
    rw [isLinked_call_iff hr hd hp]
    cases hb : isBuiltin name with
    | false =>
      have hl := (isLinked_call_iff hr hd hp).1 (runsLinked_call hr hd hp hb).isLinked
      exact iff_of_true hl rfl
    | true =>
      refine iff_of_false (fun ⟨body, h⟩ => ?_) nofun
      exact absurd (hb.symm.trans (hs.isBuiltin_eq_false h)) (by decide)

end Program

/-- A call is linked if and only if a function of its name is declared. A call of a builtin runs the
builtin even then; every other call is linked, and runs the body that it is linked to while a call
is left. So in a program that declares no function with the name of a builtin, the calls that are
linked are those that run what they are linked to, and the count of what is resolved leaves out the
calls of builtins and nothing else. -/
theorem linked_iff_runs_unless_shadowed {text : String} {p : Program} {r : Resolution}
    (hp : (Program.ofString text).1 = .ok p) (hr : p.resolve.1 = .ok r) :
    (∀ id name args, p.HasPart (.call id name args) →
      (r.isLinked id = true ↔ ∃ body, p.Declares ⟨name, .function body⟩) ∧
      (∀ b, Builtin.ofName? name = some b → ∀ shell invoke,
        (Expr.call id name args).eval shell invoke = do
          b.run shell (← Expr.evalAll shell invoke args)) ∧
      (isBuiltin name = false → r.RunsLinked id name args)) ∧
    (p.ShadowsNone →
      (∀ id name args, p.HasPart (.call id name args) →
        (r.isLinked id = true ↔ r.RunsLinked id name args) ∧
        (isBuiltin name = true → r.isLinked id = false)) ∧
      r.resolvedCount = (Statement.mentionsAll p.statements).countP fun m =>
        m.role == .variable || !isBuiltin m.name) := by
  have hd := Program.hasDistinctIds_of_ofString hp
  refine ⟨fun id name args hc => ⟨Program.isLinked_call_iff hr hd hc, fun b hb shell invoke => ?_,
    Program.runsLinked_call hr hd hc⟩, fun hs => ⟨fun id name args hc => ⟨⟨fun hl => ?_,
    Resolution.RunsLinked.isLinked⟩, fun hb => ?_⟩, ?_⟩⟩
  · rw [Expr.eval, hb]
  · obtain ⟨body, h⟩ := (Program.isLinked_call_iff hr hd hc).1 hl
    exact Program.runsLinked_call hr hd hc (hs.isBuiltin_eq_false h)
  · rw [Bool.eq_false_iff, ne_eq, Program.isLinked_call_iff hr hd hc]
    rintro ⟨body, h⟩
    exact absurd (hb.symm.trans (hs.isBuiltin_eq_false h)) (by decide)
  · rw [Program.resolvedCount_eq hr hd]
    exact List.countP_congr fun m hm => Program.isLinked_mention_iff hr hd hs hm

def shadowed (id : NodeId) : Program :=
  ⟨[.function "print" [], .expression (.call id "print" [])]⟩

theorem ofString_shadowed :
    (Program.ofString "fn print ( ) \x7b \x7d print ( ) ; ").1 = .ok (shadowed 0) := by
  have hp : IsIdentifier "print" := ⟨by decide, by decide, by decide, by decide, by decide⟩
  have he : IsClosed [.separator ";"] := rfl
  have hc : Expr.Renders 127 0 (.call 0 "print" [])
      [.identifier "print", .separator "(", .separator ")"] := .call hp .nil
  have hr : (shadowed 0).Renders IsClosed Parser.maxNesting _ :=
    .cons (.function hp .nil) (.cons (.expression hc he) .nil)
  have h := ofString_spaced hr
  exact h

def shadowedLinks : Resolution := ⟨⟨[⟨"print", .function []⟩]⟩, [(0, 0)]⟩

theorem hasPart_shadowed : (shadowed 0).HasPart (.call 0 "print" []) :=
  ⟨_, List.mem_cons_of_mem _ List.mem_cons_self, .expression (.self _)⟩

/-- The body is empty, but the call writes a line. -/
theorem not_runsLinked_shadowed : ¬ shadowedLinks.RunsLinked 0 "print" [] := by
  rintro ⟨body, hf, h⟩
  obtain rfl : [] = body := Option.some.inj hf
  have hv := congrArg (fun x => (x.run {}).1) (h (fun _ => .ok {}) 0)
  exact nomatch (show Except.ok (Value.int 0) = Except.ok Value.nil from hv)

theorem shadowsNone_bodyMention (i j : NodeId) : (bodyMention i j).ShadowsNone := by
  intro b body h
  rw [← Program.mem_declarations_iff] at h
  cases b <;>
    simp [bodyMention, Statement.declarationsAll, Statement.declarations, Builtin.name] at h

theorem linked_iff_runs_shadowed :
    (Program.ofString "fn print ( ) \x7b \x7d print ( ) ; ").1 = .ok (shadowed 0) ∧
      (shadowed 0).resolve.1 = .ok shadowedLinks ∧
      (shadowedLinks.isLinked 0 = true ↔ ∃ body, (shadowed 0).Declares ⟨"print", .function body⟩) ∧
      (Expr.call 0 "print" []).eval (fun _ => .ok {})
          (shadowedLinks.invoke (fun _ => .ok {}) 128) = (do
        Builtin.print.run (fun _ => .ok {})
          (← Expr.evalAll (fun _ => .ok {}) (shadowedLinks.invoke (fun _ => .ok {}) 128) [])) ∧
      ∃ r, (bodyMention 0 1).resolve.1 = .ok r ∧ (bodyMention 0 1).ShadowsNone ∧
        (r.isLinked 1 = true ↔ r.RunsLinked 1 "f" []) := by
  have h := (linked_iff_runs_unless_shadowed ofString_shadowed (r := shadowedLinks) rfl).1 _ _ _
    hasPart_shadowed
  have hs := shadowsNone_bodyMention 0 1
  have hf : (bodyMention 0 1).HasPart (.call 1 "f" []) :=
    ⟨_, List.mem_cons_of_mem _ (List.mem_cons_of_mem _ List.mem_cons_self), .expression (.self _)⟩
  have hl := ((linked_iff_runs_unless_shadowed ofString_bodyMention rfl).2 hs).1 _ _ _ hf
  exact ⟨ofString_shadowed, rfl, h.1, h.2.1 .print rfl _ _, _, rfl, hs, hl.1⟩

/-- It is not so that in every program that is read and resolved the calls that are linked are those
that run what they are linked to. -/
theorem not_linked_iff_runs :
    ¬ ∀ text p r id name args, (Program.ofString text).1 = .ok p → p.resolve.1 = .ok r →
      p.HasPart (.call id name args) → (r.isLinked id = true ↔ r.RunsLinked id name args) := by
  intro h
  have hl := h _ _ shadowedLinks _ _ _ ofString_shadowed rfl hasPart_shadowed
  exact not_runsLinked_shadowed (hl.1 rfl)

end FlatScript
