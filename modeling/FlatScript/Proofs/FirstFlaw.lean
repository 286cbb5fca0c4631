import FlatScript.Proofs.Naming

namespace FlatScript

/-- At the place a name is declared that has been declared before. -/
inductive Program.RepeatsAt (p : Program) : Place → ResolveError → Prop
  | mk {place place' : Place} {s s' : Symbol} (h : p.DeclaresAt place s)
      (h' : p.DeclaresAt place' s') (hlt : place' < place) (hn : s'.name = s.name) :
      p.RepeatsAt place (.duplicateSymbol s.name)

/-- At the place a name is mentioned that is declared nowhere, or as something else; a call of a
builtin needs no declaration. -/
inductive Program.MisnamesAt (p : Program) : Place → ResolveError → Prop
  | undefinedFunction {place : Place} {id : NodeId} {name : String}
      (h : p.MentionsAt place ⟨id, name, .call⟩) (hb : isBuiltin name = false)
      (hd : ∀ s, p.Declares s → s.name ≠ name) : p.MisnamesAt place (.undefinedFunction name)
  | notAFunction {place : Place} {id : NodeId} {name : String}
      (h : p.MentionsAt place ⟨id, name, .call⟩) (hb : isBuiltin name = false)
      (hd : p.Declares ⟨name, .variable⟩) : p.MisnamesAt place (.notAFunction name)
  | undefinedVariable {place : Place} {id : NodeId} {name : String}
      (h : p.MentionsAt place ⟨id, name, .variable⟩)
      (hd : ∀ s, p.Declares s → s.name ≠ name) : p.MisnamesAt place (.undefinedVariable name)
  | notAVariable {place : Place} {id : NodeId} {name : String} {body : List Statement}
      (h : p.MentionsAt place ⟨id, name, .variable⟩) (hd : p.Declares ⟨name, .function body⟩) :
      p.MisnamesAt place (.notAVariable name)

variable {α ε : Type}

/-- It is so at some place, and at no place before that one is there anything of the sort. -/
def Earliest (Q : Place → ε → Prop) (e : ε) : Prop :=
  ∃ place, Q place e ∧ ∀ place' < place, ∀ e', ¬ Q place' e'

/-! ### The first of a list -/

/-- Of the members of a list, `e` is said of the first of which anything is said, given those in
front of it: `before`, and those that have been passed. -/
inductive First (Q : List α → α → ε → Prop) : List α → List α → ε → Prop
  | here {before after : List α} {a : α} {e : ε} (h : Q before a e) :
      First Q before (a :: after) e
  | later {before after : List α} {a : α} {e : ε} (hn : ∀ e', ¬ Q before a e')
      (h : First Q (before ++ [a]) after e) : First Q before (a :: after) e

section

variable {P : Place → α → Prop} {as : List α} {Q : List α → α → ε → Prop} {Q' : Place → ε → Prop}
  {e : ε}

theorem first_cons_iff {before after : List α} {a : α} :
    First Q before (a :: after) e ↔
      Q before a e ∨ (∀ e', ¬ Q before a e') ∧ First Q (before ++ [a]) after e := by
  constructor
  · intro h
    cases h with
    | here h => exact .inl h
    | later hn h => exact .inr ⟨hn, h⟩
  · rintro (h | ⟨hn, h⟩)
    · exact .here h
    · exact .later hn h

theorem Lists.first_iff (h : Lists P as)
    (hQ : ∀ place a before, P place a → (∀ a', a' ∈ before ↔ ∃ place' < place, P place' a') →
      ∀ e, Q before a e ↔ Q' place e)
    (hP : ∀ place e, Q' place e → ∃ a, P place a) : First Q [] as e ↔ Earliest Q' e := by
  -- The members in front of one are those at the places before it, so the first member of a list in
  -- the order of places is the one at the earliest place.
  obtain ⟨entries, rfl, hs, he⟩ := h
  -- The invariant: nothing is said of the entries that have been passed.
  suffices hsplit : ∀ passed rest, entries = passed ++ rest →
      (∀ entry ∈ passed, ∀ e', ¬ Q' entry.1 e') →
      (First Q (passed.map Prod.snd) (rest.map Prod.snd) e ↔ Earliest Q' e) from
    hsplit [] entries rfl (by simp)
  intro passed rest
  induction rest generalizing passed with
  | nil =>
    rintro hsplit hp
    refine iff_of_false (fun h => nomatch h) ?_
    rintro ⟨place, hq, -⟩
    obtain ⟨a, ha⟩ := hP place e hq
    rw [← he, hsplit, List.append_nil] at ha
    exact hp _ ha e hq
  | cons entry rest ih =>
    obtain ⟨place, a⟩ := entry
    intro hsplit hp
    rw [hsplit] at hs
    obtain ⟨-, hrest, hlt⟩ := List.pairwise_append.1 hs
    have hgt := (List.pairwise_cons.1 hrest).1
    have ha : P place a := (he _ _).1 (by simp [hsplit])
    -- A place is that of an entry that has been passed, or this one, or behind this one.
    have hplace : ∀ place' a', P place' a' →
        (place', a') ∈ passed ∨ place' = place ∨ place < place' := by
      intro place' a' hP'
      rw [← he, hsplit, List.mem_append, List.mem_cons] at hP'
      refine hP'.imp_right fun hm => hm.imp (fun hm => (Prod.mk.inj hm).1) (hgt _)
    have hbefore : ∀ place' a', place' < place → P place' a' → (place', a') ∈ passed := by
      intro place' a' hl hP'
      rcases hplace place' a' hP' with hm | rfl | hl'
      · exact hm
      · exact absurd hl (List.lt_irrefl _)
      · exact absurd hl (List.lt_asymm hl')
    have hq := hQ place a (passed.map Prod.snd) ha fun a' => by
      constructor
      · intro hm
        obtain ⟨⟨place', a'⟩, hm', rfl⟩ := List.mem_map.1 hm
        have hP' : P place' a' := (he _ _).1 (by rw [hsplit]; exact List.mem_append_left _ hm')
        exact ⟨place', hlt _ hm' _ List.mem_cons_self, hP'⟩
      · rintro ⟨place', hl, hP'⟩
        exact List.mem_map.2 ⟨_, hbefore place' a' hl hP', rfl⟩
    rw [List.map_cons, first_cons_iff]
    simp only [hq]
    by_cases hsaid : ∃ e', Q' place e'
    · obtain ⟨e₁, he₁⟩ := hsaid
      constructor
      · rintro (hq | ⟨hn, -⟩)
        · refine ⟨place, hq, fun place' hl e' hq' => ?_⟩
          obtain ⟨a', ha'⟩ := hP place' e' hq'
          exact hp _ (hbefore place' a' hl ha') e' hq'
        · exact absurd he₁ (hn e₁)
      · rintro ⟨place', hq', hfirst⟩
        obtain ⟨a', ha'⟩ := hP place' e hq'
        rcases hplace place' a' ha' with hm | rfl | hl
        · exact absurd hq' (hp _ hm e)
        · exact .inl hq'
        · exact absurd he₁ (hfirst place hl e₁)
    · rw [not_exists] at hsaid
      have h := ih (passed ++ [(place, a)]) (by simp [hsplit])
        (List.forall_mem_append.2 ⟨hp, List.forall_mem_singleton.2 hsaid⟩)
      rw [List.map_append] at h
      constructor
      · rintro (hq | ⟨-, hf⟩)
        · exact absurd hq (hsaid e)
        · exact h.1 hf
      · exact fun hf => .inr ⟨hsaid, h.2 hf⟩

end

/-! ### The passes of resolution -/

namespace SymbolTable

variable {t : SymbolTable} {ss : List Symbol} {ms before : List Mention} {links : Links}
  {e : ResolveError}

def Repeats (before : List Symbol) (s : Symbol) (e : ResolveError) : Prop :=
  s.name ∈ before.map Symbol.name ∧ e = .duplicateSymbol s.name

theorem enterAll_eq_error_iff : (enterAll ss t).1 = .error e ↔ First Repeats t.symbols ss e := by
  induction ss generalizing t with
  | nil => exact iff_of_false (fun h => nomatch h) fun h => nomatch h
  | cons s ss ih =>
    rw [first_cons_iff, enterAll]
    by_cases hs : (t.lookup s.name).isSome = true
    · have hm := lookup_isSome_iff.1 hs
      rw [enter, if_pos hs]
      constructor
      · intro h
        exact .inl ⟨hm, (Except.error.inj h).symm⟩
      · rintro (⟨-, rfl⟩ | ⟨hn, -⟩)
        · rfl
        · exact absurd ⟨hm, rfl⟩ (hn _)
    · have hm := mt lookup_isSome_iff.2 hs
      rw [enter, if_neg hs]
      simpa [Repeats, hm] using ih (t := ⟨t.symbols ++ [s]⟩)

theorem linkAll_eq_error_iff (before : List Mention) :
    t.linkAll ms links = .error e ↔ First (fun _ m e => t.link? m = .error e) before ms e := by
  induction ms generalizing links before with
  | nil => exact iff_of_false (fun h => nomatch h) fun h => nomatch h
  | cons m ms ih =>
    rw [first_cons_iff, linkAll]
    rcases t.link? m with e' | _ | symbol
    · simp
    · simpa using ih _
    · simpa using ih _

end SymbolTable

namespace Program

variable {p : Program} {t : SymbolTable} {e : ResolveError}

theorem enterAll_eq_error_iff :
    (SymbolTable.enterAll (Statement.declarationsAll p.statements) {}).1 = .error e ↔
      Earliest p.RepeatsAt e := by
  rw [SymbolTable.enterAll_eq_error_iff]
  refine p.lists_declarations.first_iff (fun place s before hs hb e => ⟨?_, ?_⟩) ?_
  · rintro ⟨hm, rfl⟩
    obtain ⟨s', hm, hn⟩ := List.mem_map.1 hm
    obtain ⟨place', hlt, hs'⟩ := (hb s').1 hm
    exact .mk hs hs' hlt hn
  · rintro ⟨h, h', hlt, hn⟩
    obtain rfl := p.lists_declarations.unique hs h
    exact ⟨List.mem_map.2 ⟨_, (hb _).2 ⟨_, hlt, h'⟩, hn⟩, rfl⟩
  · rintro place e ⟨h⟩
    exact ⟨_, h⟩

section Link

variable {m : Mention} (ht : t.symbols = Statement.declarationsAll p.statements)
  (hn : (t.symbols.map Symbol.name).Nodup)

include ht

theorem lookup_eq_none_iff {name : String} :
    (t.lookup name).bind t.get? = none ↔ ∀ s, p.Declares s → s.name ≠ name := by
  rw [SymbolTable.lookup_bind_get, List.find?_eq_none, ht]
  simp [mem_declarations_iff]

include hn

theorem lookup_eq_some_iff_declares {name : String} {s : Symbol} :
    (t.lookup name).bind t.get? = some s ↔ p.Declares s ∧ s.name = name := by
  rw [SymbolTable.lookup_bind_get_eq_some_iff hn, ht, mem_declarations_iff]

theorem link_eq_error_iff {place : Place} (hm : p.MentionsAt place m) :
    t.link? m = .error e ↔ p.MisnamesAt place e := by
  constructor
  · obtain ⟨id, name, role⟩ := m
    intro h
    match role, hs : (t.lookup name).bind t.get? with
    | .variable, none =>
      obtain rfl : ResolveError.undefinedVariable name = e := by simpa [SymbolTable.link?, hs] using h
      exact .undefinedVariable hm ((lookup_eq_none_iff ht).1 hs)
    | .variable, some ⟨_, .function body⟩ =>
      obtain rfl : ResolveError.notAVariable name = e := by simpa [SymbolTable.link?, hs] using h
      obtain ⟨hd, rfl⟩ := (lookup_eq_some_iff_declares ht hn).1 hs
      exact .notAVariable hm hd
    | .call, none =>
      obtain ⟨hb, rfl⟩ : isBuiltin name = false ∧ ResolveError.undefinedFunction name = e := by
        cases hb : isBuiltin name <;> simp_all [SymbolTable.link?]
      exact .undefinedFunction hm hb ((lookup_eq_none_iff ht).1 hs)
    | .call, some ⟨_, .variable⟩ =>
      obtain ⟨hb, rfl⟩ : isBuiltin name = false ∧ ResolveError.notAFunction name = e := by
        cases hb : isBuiltin name <;> simp_all [SymbolTable.link?]
      obtain ⟨hd, rfl⟩ := (lookup_eq_some_iff_declares ht hn).1 hs
      exact .notAFunction hm hb hd
    | .variable, some ⟨_, .variable⟩ | .call, some ⟨_, .function _⟩ =>
      simp [SymbolTable.link?, hs] at h
  · intro h
    -- Only one mention stands at the place.
    have hu : ∀ m', p.MentionsAt place m' → m = m' := fun m' => p.lists_mentions.unique hm
    cases h with
    | undefinedFunction h hb hd =>
      obtain rfl := hu _ h
      simp [SymbolTable.link?, (lookup_eq_none_iff ht).2 hd, hb]
    | notAFunction h hb hd =>
      obtain rfl := hu _ h
      simp [SymbolTable.link?, (lookup_eq_some_iff_declares ht hn).2 ⟨hd, rfl⟩, hb]
    | undefinedVariable h hd =>
      obtain rfl := hu _ h
      simp [SymbolTable.link?, (lookup_eq_none_iff ht).2 hd]
    | notAVariable h hd =>
      obtain rfl := hu _ h
      simp [SymbolTable.link?, (lookup_eq_some_iff_declares ht hn).2 ⟨hd, rfl⟩]

theorem linkAll_eq_error_iff :
    t.linkAll (Statement.mentionsAll p.statements) [] = .error e ↔ Earliest p.MisnamesAt e := by
  rw [SymbolTable.linkAll_eq_error_iff []]
  refine p.lists_mentions.first_iff (fun place m _ hm _ e => link_eq_error_iff ht hn hm) ?_
  intro place e h
  cases h with
  | undefinedFunction h | notAFunction h | undefinedVariable h | notAVariable h => exact ⟨_, h⟩

end Link

end Program

/-- A program that repeats the name of a declaration, at whatever levels the declarations stand,
fails to resolve for the first declaration whose name has been declared before. Otherwise it fails
for the first mention, in the order of reading, that its name's declaration does not serve: for a
variable that is not declared or is a function, and for a function that is no builtin and is not
declared or is a variable. -/
theorem resolve_eq_error_iff (p : Program) (e : ResolveError) :
    p.resolve.1 = .error e ↔
      Earliest p.RepeatsAt e ∨ (∀ place e', ¬ p.RepeatsAt place e') ∧ Earliest p.MisnamesAt e := by
  rw [← Program.enterAll_eq_error_iff]
  rcases he : SymbolTable.enterAll (Statement.declarationsAll p.statements) {} with ⟨e' | t, ws⟩
  · have hp : p.resolve.1 = .error e' := by simp [Program.resolve, he]
    obtain ⟨place, hr, -⟩ := Program.enterAll_eq_error_iff.1 (congrArg Prod.fst he)
    rw [hp]
    constructor
    · intro h
      exact .inl (congrArg Except.error (Except.error.inj h))
    · rintro (h | ⟨hn, -⟩)
      · exact congrArg Except.error (Except.error.inj h)
      · exact absurd hr (hn place e')
  · obtain ⟨ht, hn⟩ := SymbolTable.enterAll_eq_ok (congrArg Prod.fst he) (by simp)
    have hnone : ∀ place e', ¬ p.RepeatsAt place e' := by
      rintro place e' ⟨h, h', hlt, hname⟩
      rw [ht] at hn
      rw [p.lists_declarations.nodup_map_iff.1 hn _ _ _ _ h' h hname] at hlt
      exact List.lt_irrefl _ hlt
    rw [← Program.linkAll_eq_error_iff ht hn]
    cases hl : t.linkAll (Statement.mentionsAll p.statements) [] with
    | error e' => simp [Program.resolve, he, hl, hnone]
    | ok links => simp [Program.resolve, he, hl]

example :
    (Program.mk [.expression (.call 0 "f" []), .variable "x" "any" none,
      .variable "x" "any" none]).resolve.1 = .error (.duplicateSymbol "x") := rfl

end FlatScript
