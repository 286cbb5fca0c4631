import Mathlib.Data.List.Nodup
import FlatScript.Proofs.Part

namespace FlatScript

/-- In which statement something stands, in which statement of its body, in which operand or
argument of that, and so on, counting from 0. -/
abbrev Place := List Nat

/-- The mention stands at the place in the expression: a call in front of its arguments. -/
inductive Expr.MentionsAt : Expr → Place → Mention → Prop
  | variable (id : NodeId) (name : String) :
      Expr.MentionsAt (.variable id name) [] ⟨id, name, .variable⟩
  | call (id : NodeId) (name : String) (args : List Expr) :
      Expr.MentionsAt (.call id name args) [] ⟨id, name, .call⟩
  | argument {id : NodeId} {name : String} {args : List Expr} {i : Nat} {e : Expr} {place : Place}
      {m : Mention} (h : args[i]? = some e) (he : Expr.MentionsAt e place m) :
      Expr.MentionsAt (.call id name args) (i :: place) m
  | externalArgument {module function : String} {args : List Expr} {i : Nat} {e : Expr}
      {place : Place} {m : Mention} (h : args[i]? = some e) (he : Expr.MentionsAt e place m) :
      Expr.MentionsAt (.externalCall module function args) (i :: place) m
  | left {op : Operator} {left right : Expr} {place : Place} {m : Mention}
      (h : Expr.MentionsAt left place m) : Expr.MentionsAt (.binary op left right) (0 :: place) m
  | right {op : Operator} {left right : Expr} {place : Place} {m : Mention}
      (h : Expr.MentionsAt right place m) : Expr.MentionsAt (.binary op left right) (1 :: place) m

inductive Statement.MentionsAt : Statement → Place → Mention → Prop
  | body {name : String} {body : List Statement} {i : Nat} {s : Statement} {place : Place}
      {m : Mention} (h : body[i]? = some s) (hs : Statement.MentionsAt s place m) :
      Statement.MentionsAt (.function name body) (i :: place) m
  | init {name typeName : String} {e : Expr} {place : Place} {m : Mention}
      (h : e.MentionsAt place m) : Statement.MentionsAt (.variable name typeName (some e)) place m
  | expression {e : Expr} {place : Place} {m : Mention} (h : e.MentionsAt place m) :
      Statement.MentionsAt (.expression e) place m

inductive Statement.DeclaresAt : Statement → Place → Symbol → Prop
  | function (name : String) (body : List Statement) :
      Statement.DeclaresAt (.function name body) [] ⟨name, .function body⟩
  | body {name : String} {body : List Statement} {i : Nat} {s : Statement} {place : Place}
      {symbol : Symbol} (h : body[i]? = some s) (hs : Statement.DeclaresAt s place symbol) :
      Statement.DeclaresAt (.function name body) (i :: place) symbol
  | variable (name typeName : String) (init : Option Expr) :
      Statement.DeclaresAt (.variable name typeName init) [] ⟨name, .variable⟩

/-- What the members of a list have at their places, at the places in the list. -/
inductive AtMember {ι α : Type} (P : ι → Place → α → Prop) (is : List ι) : Place → α → Prop
  | mk {k : Nat} {i : ι} {place : Place} {a : α} (h : is[k]? = some i) (hi : P i place a) :
      AtMember P is (k :: place) a

def Program.MentionsAt (p : Program) : Place → Mention → Prop :=
  AtMember Statement.MentionsAt p.statements

def Program.DeclaresAt (p : Program) : Place → Symbol → Prop :=
  AtMember Statement.DeclaresAt p.statements

variable {ι α : Type}

/-- The list consists of what stands at the places, in the order of the places. -/
def Lists (P : Place → α → Prop) (as : List α) : Prop :=
  ∃ entries : List (Place × α), entries.map Prod.snd = as ∧
    entries.Pairwise (fun x y => x.1 < y.1) ∧ ∀ place a, (place, a) ∈ entries ↔ P place a

variable {P : Place → α → Prop} {as : List α} {a : α}

theorem lists_nil (h : ∀ place a, ¬ P place a) : Lists P [] :=
  ⟨[], rfl, .nil, fun place a => iff_of_false List.not_mem_nil (h place a)⟩

theorem Lists.cons {Q : Place → α → Prop} (h : Lists Q as) (hQ : ∀ a, ¬ Q [] a)
    (hP : ∀ place a', P place a' ↔ (place = [] ∧ a' = a) ∨ Q place a') : Lists P (a :: as) := by
  obtain ⟨entries, rfl, hs, he⟩ := h
  refine ⟨([], a) :: entries, rfl, List.pairwise_cons.2 ⟨fun entry hm => ?_, hs⟩, fun place a' => ?_⟩
  · obtain ⟨place, a'⟩ := entry
    cases place with
    | nil => exact absurd ((he _ _).1 hm) (hQ a')
    | cons k place => exact List.nil_lt_cons k place
  · rw [List.mem_cons, he, hP, Prod.mk.injEq]

theorem lists_singleton (h : ∀ place a', P place a' ↔ place = [] ∧ a' = a) : Lists P [a] :=
  (lists_nil (P := fun _ _ => False) fun _ _ => id).cons (fun _ => id) fun place a' => by
    rw [h, or_false]

theorem Lists.congr {Q : Place → α → Prop} (h : Lists Q as)
    (hP : ∀ place a, P place a ↔ Q place a) : Lists P as := by
  obtain ⟨entries, hm, hs, he⟩ := h
  exact ⟨entries, hm, hs, fun place a => (he place a).trans (hP place a).symm⟩

theorem Lists.unique {place : Place} {a' : α} (h : Lists P as) (ha : P place a)
    (ha' : P place a') : a = a' := by
  obtain ⟨entries, -, hs, he⟩ := h
  obtain ⟨i, hi, hia⟩ := List.mem_iff_getElem.1 ((he _ _).2 ha)
  obtain ⟨j, hj, hja⟩ := List.mem_iff_getElem.1 ((he _ _).2 ha')
  rw [List.pairwise_iff_getElem] at hs
  rcases Nat.lt_trichotomy i j with hlt | rfl | hlt
  · have h := hs i j hi hj hlt
    rw [hia, hja] at h
    exact absurd h (List.lt_irrefl _)
  · exact (Prod.mk.inj (hia.symm.trans hja)).2
  · have h := hs j i hj hi hlt
    rw [hia, hja] at h
    exact absurd h (List.lt_irrefl _)

theorem Lists.nodup_map_iff {β : Type} {f : α → β} (h : Lists P as) :
    (as.map f).Nodup ↔
      ∀ place place' a a', P place a → P place' a' → f a = f a' → place = place' := by
  obtain ⟨entries, rfl, hs, he⟩ := h
  rw [List.map_map]
  constructor
  · intro hn place place' a a' ha ha' hf
    exact (Prod.mk.inj (List.inj_on_of_nodup_map hn ((he _ _).2 ha) ((he _ _).2 ha') hf)).1
  · intro hp
    refine List.pairwise_map.2 (hs.imp_of_mem fun {x y} hx hy hlt hf => ?_)
    rw [hp x.1 y.1 x.2 y.2 ((he _ _).1 hx) ((he _ _).1 hy) hf] at hlt
    exact List.lt_irrefl _ hlt

theorem lists_flatMap_from {R : ι → Place → α → Prop} {g : ι → List α} {is : List ι}
    (h : ∀ i ∈ is, Lists (R i) (g i)) (k : Nat) :
    Lists (fun place a => ∃ j i q, place = (k + j) :: q ∧ is[j]? = some i ∧ R i q a)
      (is.flatMap g) := by
  induction is generalizing k with
  | nil => exact lists_nil fun place a => by simp
  | cons i is ih =>
    rw [List.forall_mem_cons] at h
    obtain ⟨first, hf, hfs, hfe⟩ := h.1
    obtain ⟨rest, hr, hrs, hre⟩ := ih h.2 (k + 1)
    refine ⟨first.map (fun entry => (k :: entry.1, entry.2)) ++ rest, ?_, ?_, fun place a => ?_⟩
    · rw [List.map_append, hr, List.map_map, List.flatMap_cons, ← hf]
      rfl
    · refine List.pairwise_append.2 ⟨List.pairwise_map.2 (hfs.imp fun hlt => ?_), hrs, ?_⟩
      · exact List.cons_lt_cons_iff.2 (.inr ⟨rfl, hlt⟩)
      · intro x hx y hy
        obtain ⟨entry, -, rfl⟩ := List.mem_map.1 hx
        obtain ⟨j, -, q, hq, -⟩ := (hre y.1 y.2).1 hy
        rw [hq]
        exact List.cons_lt_cons_iff.2 (.inl (by omega))
    · rw [List.mem_append, hre, List.mem_map]
      constructor
      · rintro (⟨⟨q, a'⟩, hm, he⟩ | ⟨j, i', q, rfl, hj, hR⟩)
        · obtain ⟨rfl, rfl⟩ := Prod.mk.inj he
          exact ⟨0, i, q, rfl, rfl, (hfe _ _).1 hm⟩
        · exact ⟨j + 1, i', q, by rw [Nat.add_right_comm, Nat.add_assoc], hj, hR⟩
      · rintro ⟨j, i', q, rfl, hj, hR⟩
        cases j with
        | zero =>
          obtain rfl : i = i' := by simpa using hj
          exact .inl ⟨(q, a), (hfe _ _).2 hR, rfl⟩
        | succ j =>
          exact .inr ⟨j, i', q, by rw [Nat.add_right_comm, Nat.add_assoc], by simpa using hj, hR⟩

theorem lists_flatMap {R : ι → Place → α → Prop} {g : ι → List α} {is : List ι}
    (h : ∀ i ∈ is, Lists (R i) (g i)) : Lists (AtMember R is) (is.flatMap g) := by
  refine (lists_flatMap_from h 0).congr fun place a => ⟨?_, ?_⟩
  · rintro ⟨hj, hR⟩
    exact ⟨_, _, _, by rw [Nat.zero_add], hj, hR⟩
  · rintro ⟨j, i, q, rfl, hj, hR⟩
    rw [Nat.zero_add]
    exact ⟨hj, hR⟩

mutual

theorem Expr.lists_mentions : ∀ e : Expr, Lists e.MentionsAt e.mentions
  | .string _ | .integer _ | .decimal _ | .boolean _ | .null => lists_nil fun _ _ h => nomatch h
  | .variable id name => by
    refine lists_singleton fun place m => ⟨fun h => ?_, ?_⟩
    · cases h
      exact ⟨rfl, rfl⟩
    · rintro ⟨rfl, rfl⟩
      exact .variable id name
  | .call id name args => by
    have h := lists_flatMap (Expr.lists_mentions_of_mem args)
    rw [Expr.mentions, Expr.mentionsAll_eq_flatMap]
    refine h.cons (fun _ h => nomatch h) fun place m => ⟨fun h => ?_, ?_⟩
    · cases h with
      | call => exact .inl ⟨rfl, rfl⟩
      | argument h he => exact .inr ⟨h, he⟩
    · rintro (⟨rfl, rfl⟩ | ⟨h, he⟩)
      · exact .call id name args
      · exact .argument h he
  | .externalCall _ _ args => by
    have h := lists_flatMap (Expr.lists_mentions_of_mem args)
    rw [Expr.mentions, Expr.mentionsAll_eq_flatMap]
    refine h.congr fun place m => ⟨fun h => ?_, fun ⟨h, he⟩ => .externalArgument h he⟩
    cases h with
    | externalArgument h he => exact ⟨h, he⟩
  | .binary op left right => by
    have h : Lists (AtMember Expr.MentionsAt [left, right]) ([left, right].flatMap Expr.mentions) :=
      lists_flatMap (by simpa using ⟨Expr.lists_mentions left, Expr.lists_mentions right⟩)
    rw [List.flatMap_cons, List.flatMap_singleton] at h
    refine h.congr fun place m => ⟨fun h => ?_, ?_⟩
    · cases h with
      | left h => exact ⟨rfl, h⟩
      | right h => exact ⟨rfl, h⟩
    · rintro (@⟨k, e, place, _, hk, he⟩)
      match k, hk with
      | 0, hk =>
        obtain rfl : left = e := by simpa using hk
        exact .left he
      | 1, hk =>
        obtain rfl : right = e := by simpa using hk
        exact .right he

theorem Expr.lists_mentions_of_mem : ∀ es : List Expr, ∀ e ∈ es, Lists e.MentionsAt e.mentions
  | [] => by simp
  | e :: es => List.forall_mem_cons.2 ⟨Expr.lists_mentions e, Expr.lists_mentions_of_mem es⟩

end

mutual

theorem Statement.lists_mentions : ∀ s : Statement, Lists s.MentionsAt s.mentions
  | .importFile _ | .variable _ _ none => lists_nil fun _ _ h => nomatch h
  | .function _ body => by
    have h := lists_flatMap (Statement.lists_mentions_of_mem body)
    rw [Statement.mentions, Statement.mentionsAll_eq_flatMap]
    refine h.congr fun place m => ⟨fun h => ?_, fun ⟨h, hs⟩ => .body h hs⟩
    cases h with
    | body h hs => exact ⟨h, hs⟩
  | .variable _ _ (some e) => by
    refine e.lists_mentions.congr fun place m => ⟨fun h => ?_, .init⟩
    cases h with
    | init h => exact h
  | .expression e => by
    refine e.lists_mentions.congr fun place m => ⟨fun h => ?_, .expression⟩
    cases h with
    | expression h => exact h

theorem Statement.lists_mentions_of_mem : ∀ ss : List Statement,
    ∀ s ∈ ss, Lists s.MentionsAt s.mentions
  | [] => by simp
  | s :: ss =>
    List.forall_mem_cons.2 ⟨Statement.lists_mentions s, Statement.lists_mentions_of_mem ss⟩

end

mutual

theorem Statement.lists_declarations : ∀ s : Statement, Lists s.DeclaresAt s.declarations
  | .importFile _ | .expression _ => lists_nil fun _ _ h => nomatch h
  | .function name body => by
    have h := lists_flatMap (Statement.lists_declarations_of_mem body)
    rw [Statement.declarations, Statement.declarationsAll_eq_flatMap]
    refine h.cons (fun _ h => nomatch h) fun place symbol => ⟨fun h => ?_, ?_⟩
    · cases h with
      | function => exact .inl ⟨rfl, rfl⟩
      | body h hs => exact .inr ⟨h, hs⟩
    · rintro (⟨rfl, rfl⟩ | ⟨h, hs⟩)
      · exact .function name body
      · exact .body h hs
  | .variable name typeName init => by
    refine lists_singleton fun place symbol => ⟨fun h => ?_, ?_⟩
    · cases h
      exact ⟨rfl, rfl⟩
    · rintro ⟨rfl, rfl⟩
      exact .variable name typeName init

theorem Statement.lists_declarations_of_mem : ∀ ss : List Statement,
    ∀ s ∈ ss, Lists s.DeclaresAt s.declarations
  | [] => by simp
  | s :: ss =>
    List.forall_mem_cons.2 ⟨Statement.lists_declarations s, Statement.lists_declarations_of_mem ss⟩

end

namespace Program

variable (p : Program)

theorem lists_mentions : Lists p.MentionsAt (Statement.mentionsAll p.statements) := by
  rw [Statement.mentionsAll_eq_flatMap]
  exact lists_flatMap (Statement.lists_mentions_of_mem p.statements)

theorem lists_declarations : Lists p.DeclaresAt (Statement.declarationsAll p.statements) := by
  rw [Statement.declarationsAll_eq_flatMap]
  exact lists_flatMap (Statement.lists_declarations_of_mem p.statements)

end Program

end FlatScript
