import Mathlib.Data.List.Basic
import FlatScript.Proofs.Linking
import FlatScript.Proofs.Parsing
import FlatScript.Proofs.Place

namespace FlatScript

def Program.HasDistinctIds (p : Program) : Prop :=
  ((Statement.mentionsAll p.statements).map Mention.id).Nodup

structure Program.WellNamed (p : Program) : Prop where
  unique : ∀ place place' s s', p.DeclaresAt place s → p.DeclaresAt place' s' → s.name = s'.name →
    place = place'
  call_declared : ∀ id name args, p.HasPart (.call id name args) →
    isBuiltin name = true ∨ ∃ body, p.Declares ⟨name, .function body⟩
  variable_declared : ∀ id name, p.HasPart (.variable id name) → p.Declares ⟨name, .variable⟩

/-- A part of number `id` mentions the name of the symbol, as a variable or as a function according
to what the symbol is. -/
inductive Program.Refers (p : Program) (id : NodeId) : Symbol → Prop
  | toVariable {name : String} (h : p.HasPart (.variable id name))
      (hd : p.Declares ⟨name, .variable⟩) : Program.Refers p id ⟨name, .variable⟩
  | toFunction {name : String} {args : List Expr} {body : List Statement}
      (h : p.HasPart (.call id name args)) (hd : p.Declares ⟨name, .function body⟩) :
      Program.Refers p id ⟨name, .function body⟩

/-- What the resolution of a program holds. -/
structure Resolution.Describes (r : Resolution) (p : Program) : Prop where
  symbols : Lists p.DeclaresAt r.symbols.symbols
  lookup : ∀ name id, r.symbols.lookup name = some id ↔
    ∃ s, r.symbols.get? id = some s ∧ s.name = name
  link : ∀ id symbol, r.links.get? id = some symbol ↔
    ∃ s, r.symbols.get? symbol = some s ∧ p.Refers id s
  isLinked : ∀ id, r.isLinked id = true ↔ (∃ name, p.HasPart (.variable id name)) ∨
    ∃ name args body, p.HasPart (.call id name args) ∧ p.Declares ⟨name, .function body⟩
  symbolFor : ∀ id s, r.symbolFor? id = some s ↔ p.Refers id s
  references : ∀ id s, (id, s) ∈ r.references ↔ p.Refers id s
  increasing : (r.references.map Prod.fst).Pairwise (· < ·)
  count : r.references.length = r.resolvedCount

/-! ### Links in order -/

namespace Links

def Descending (links : Links) : Prop := links.Pairwise fun a b => b.1 < a.1

variable {links : Links} {id : NodeId} {symbol : SymbolId}

theorem mem_insert {link : NodeId × SymbolId} (h : link ∈ links.insert id symbol) :
    link = (id, symbol) ∨ link ∈ links := by
  induction links with
  | nil => exact .inl (by simpa [insert] using h)
  | cons link' links ih =>
    rw [insert] at h
    split at h
    · simpa using h
    split at h
    · rcases List.mem_cons.1 h with h | h
      · exact .inl h
      · exact .inr (List.mem_cons_of_mem _ h)
    · rcases List.mem_cons.1 h with h | h
      · exact .inr (List.mem_cons.2 (.inl h))
      · exact (ih h).imp_right (List.mem_cons_of_mem _)

theorem Descending.insert (h : links.Descending) (id : NodeId) (symbol : SymbolId) :
    (links.insert id symbol).Descending := by
  induction links with
  | nil => exact List.pairwise_singleton _ _
  | cons link links ih =>
    obtain ⟨hl, hs⟩ := List.pairwise_cons.1 h
    rw [Links.insert]
    split
    next hlt =>
      refine List.pairwise_cons.2 ⟨List.forall_mem_cons.2 ⟨hlt, fun b hb => ?_⟩, h⟩
      exact Nat.lt_trans (hl b hb) hlt
    split
    next he => exact List.pairwise_cons.2 ⟨fun b hb => he ▸ hl b hb, hs⟩
    next hlt hne =>
      refine List.pairwise_cons.2 ⟨fun b hb => ?_, ih hs⟩
      rcases mem_insert hb with rfl | hb
      · exact Nat.lt_of_le_of_ne (Nat.le_of_not_lt hlt) hne
      · exact hl b hb

theorem Descending.mem_iff (h : links.Descending) :
    (id, symbol) ∈ links ↔ links.get? id = some symbol := by
  induction links with
  | nil => simp [get?]
  | cons link links ih =>
    obtain ⟨hl, hs⟩ := List.pairwise_cons.1 h
    by_cases he : link.1 = id
    · have hn : (id, symbol) ∉ links := fun hm => Nat.lt_irrefl _ (he ▸ hl _ hm)
      simp [get?, he, hn, Prod.ext_iff, eq_comm]
    · have hne : (id, symbol) ≠ link := fun hm => he (hm ▸ rfl)
      simpa [get?, he, hne] using ih hs

end Links

/-! ### Symbols and links -/

/-- A symbol that a mention in the role can refer to. -/
def Symbol.Serves (s : Symbol) (role : MentionRole) : Prop :=
  match s.declaration, role with
  | .variable, .variable | .function _, .call => True
  | _, _ => False

namespace SymbolTable

variable {t : SymbolTable} {ss : List Symbol}

theorem enterAll_of_nodup (h : ((t.symbols ++ ss).map Symbol.name).Nodup) :
    (enterAll ss t).1 = .ok ⟨t.symbols ++ ss⟩ := by
  induction ss generalizing t with
  | nil => simp [enterAll]
  | cons s ss ih =>
    have hs : ¬ (t.lookup s.name).isSome = true := by
      rw [lookup_isSome_iff]
      rw [List.map_append, List.map_cons, List.nodup_append] at h
      exact fun hm => h.2.2 _ hm _ List.mem_cons_self rfl
    have h' := ih (t := ⟨t.symbols ++ [s]⟩) (by simpa using h)
    simpa [enterAll, enter, hs] using h'

theorem lookup_bind_get (t : SymbolTable) (name : String) :
    (t.lookup name).bind t.get? = t.symbols.find? (·.name == name) :=
  List.find?_eq_bind_findIdx?_getElem?.symm

variable (hn : (t.symbols.map Symbol.name).Nodup)

include hn

theorem lookup_bind_get_eq_some_iff {name : String} {s : Symbol} :
    (t.lookup name).bind t.get? = some s ↔ s ∈ t.symbols ∧ s.name = name := by
  rw [lookup_bind_get]
  constructor
  · intro h
    exact ⟨List.mem_of_find?_eq_some h, by simpa using List.find?_some h⟩
  · rintro ⟨hs, rfl⟩
    exact find_of_mem hn hs

theorem lookup_eq_some_iff {name : String} {id : SymbolId} :
    t.lookup name = some id ↔ ∃ s, t.get? id = some s ∧ s.name = name := by
  constructor
  · intro h
    have hlt := (List.findIdx?_eq_some_iff_getElem.1 h).1
    have hg : t.get? id = some t.symbols[id] := List.getElem?_eq_getElem hlt
    exact ⟨_, hg, (symbol_of_lookup h hg).1⟩
  · rintro ⟨s, hs, rfl⟩
    obtain ⟨hlt, rfl⟩ := List.getElem?_eq_some_iff.1 hs
    -- The look-up finds the first symbol of the name, and there is no other.
    refine List.findIdx?_eq_some_iff_getElem.2 ⟨hlt, by simp, fun j hj => ?_⟩
    have hne := List.pairwise_iff_getElem.1 (List.pairwise_map.1 hn) j id
      (Nat.lt_trans hj hlt) hlt hj
    simpa using hne

end SymbolTable

section Link

variable {t : SymbolTable} {m : Mention} {ms : List Mention} {links links' : Links}
  {symbol : Option SymbolId}

/-- The symbol of a mention's name, if it serves the mention. -/
def SymbolTable.Finds (t : SymbolTable) (m : Mention) (s : Symbol) : Prop :=
  (t.lookup m.name).bind t.get? = some s ∧ s.Serves m.role

theorem SymbolTable.exists_link_iff :
    (∃ symbol, t.link? m = .ok symbol) ↔
      (∃ s, t.Finds m s) ∨ (m.role = .call ∧ isBuiltin m.name = true) := by
  obtain ⟨id, name, role⟩ := m
  match role, hs : (t.lookup name).bind t.get? with
  | .variable, none | .variable, some ⟨_, .function _⟩ => simp [link?, Finds, Symbol.Serves, hs]
  | .variable, some ⟨_, .variable⟩ | .call, some ⟨_, .function _⟩ =>
    simp [link?, Finds, Symbol.Serves, hs]
  | .call, none | .call, some ⟨_, .variable⟩ =>
    cases hb : isBuiltin name <;> simp [link?, Finds, Symbol.Serves, hs, hb]

theorem SymbolTable.link_eq_ok (h : t.link? m = .ok symbol) :
    (symbol = t.lookup m.name ∧ ∃ s, t.Finds m s) ∨ (symbol = none ∧ ∀ s, ¬ t.Finds m s) := by
  obtain ⟨id, name, role⟩ := m
  match role, hs : (t.lookup name).bind t.get? with
  | .variable, none | .variable, some ⟨_, .function _⟩ => simp [link?, hs] at h
  | .variable, some ⟨_, .variable⟩ | .call, some ⟨_, .function _⟩ =>
    refine .inl ⟨?_, _, hs, trivial⟩
    simpa [link?, hs, eq_comm] using h
  | .call, none | .call, some ⟨_, .variable⟩ =>
    refine .inr ⟨?_, by simp [Finds, Symbol.Serves, hs]⟩
    simp only [link?, hs] at h
    split at h
    · simpa [eq_comm] using h
    · simp at h

theorem SymbolTable.exists_linkAll_iff :
    (∃ links', t.linkAll ms links = .ok links') ↔ ∀ m ∈ ms, ∃ symbol, t.link? m = .ok symbol := by
  induction ms generalizing links with
  | nil => simp [linkAll]
  | cons m ms ih =>
    rw [List.forall_mem_cons, linkAll]
    rcases t.link? m with e | _ | symbol
    · simp
    · simpa using @ih links
    · simpa using @ih (links.insert m.id symbol)

theorem SymbolTable.descending_linkAll (h : t.linkAll ms links = .ok links')
    (hl : links.Descending) : links'.Descending := by
  fun_induction linkAll t ms links with
  | case1 links =>
    obtain rfl : links = links' := by simpa using h
    exact hl
  | case2 => simp at h
  | case3 m ms links hm ih => exact ih h hl
  | case4 m ms links symbol hm ih => exact ih h (hl.insert m.id symbol)

theorem SymbolTable.get_linkAll_iff (h : t.linkAll ms [] = .ok links)
    (hm : (ms.map Mention.id).Nodup) {id : NodeId} {symbol : SymbolId} :
    links.get? id = some symbol ↔ ∃ m ∈ ms, m.id = id ∧ t.link? m = .ok (some symbol) := by
  have hl := link_of_linkAll h hm fun _ _ => rfl
  constructor
  · intro hs
    -- A number that no mention has is not linked at all.
    by_cases hid : id ∈ ms.map Mention.id
    · obtain ⟨m, hm, rfl⟩ := List.mem_map.1 hid
      exact ⟨m, hm, rfl, hs ▸ hl m hm⟩
    · rw [get_linkAll_of_not_mem h hid] at hs
      simp [Links.get?] at hs
  · rintro ⟨m, hm, rfl, hs⟩
    exact Except.ok.inj ((hl m hm).symm.trans hs)

variable (hn : (t.symbols.map Symbol.name).Nodup)

include hn

theorem SymbolTable.finds_iff {s : Symbol} :
    t.Finds m s ↔ s ∈ t.symbols ∧ s.name = m.name ∧ s.Serves m.role := by
  rw [Finds, lookup_bind_get_eq_some_iff hn, and_assoc]

theorem SymbolTable.link_eq_some_iff (h : t.link? m = .ok symbol) {id : SymbolId} :
    symbol = some id ↔ ∃ s, t.get? id = some s ∧ t.Finds m s := by
  rcases link_eq_ok h with ⟨rfl, s, hs⟩ | ⟨rfl, hs⟩
  · constructor
    · intro hid
      have hg := hs.1
      rw [hid, Option.bind_some] at hg
      exact ⟨s, hg, hs⟩
    · rintro ⟨s', hg, hs'⟩
      exact (lookup_eq_some_iff hn).2 ⟨s', hg, ((finds_iff hn).1 hs').2.1⟩
  · constructor
    · simp
    · rintro ⟨s, -, hs'⟩
      exact absurd hs' (hs s)

end Link

namespace Program

variable {p : Program} {r : Resolution}

theorem refers_iff {id : NodeId} {s : Symbol} :
    p.Refers id s ↔ ∃ m ∈ Statement.mentionsAll p.statements, m.id = id ∧
      s ∈ Statement.declarationsAll p.statements ∧ s.name = m.name ∧ s.Serves m.role := by
  constructor
  · intro h
    cases h with
    | @toVariable name hp hd =>
      exact ⟨⟨id, name, .variable⟩, mem_mentions_iff.2 ⟨_, hp, rfl⟩, rfl,
        mem_declarations_iff.2 hd, rfl, trivial⟩
    | @toFunction name args body hp hd =>
      exact ⟨⟨id, name, .call⟩, mem_mentions_iff.2 ⟨_, hp, rfl⟩, rfl, mem_declarations_iff.2 hd,
        rfl, trivial⟩
  · rintro ⟨⟨id, name, role⟩, hm, rfl, hd, hname, hs⟩
    obtain ⟨e, hp, he⟩ := mem_mentions_iff.1 hm
    rw [mem_declarations_iff] at hd
    -- The other two pairs of a symbol and a role do not serve.
    match s, role with
    | ⟨_, .variable⟩, .variable =>
      obtain rfl := hname
      obtain rfl := Expr.mention_eq_variable_iff.1 he
      exact .toVariable hp hd
    | ⟨_, .function body⟩, .call =>
      obtain rfl := hname
      obtain ⟨args, rfl⟩ := Expr.mention_eq_call_iff.1 he
      exact .toFunction hp hd

theorem wellNamed_iff :
    p.WellNamed ↔ ((Statement.declarationsAll p.statements).map Symbol.name).Nodup ∧
      ∀ m ∈ Statement.mentionsAll p.statements,
        (∃ s ∈ Statement.declarationsAll p.statements, s.name = m.name ∧ s.Serves m.role) ∨
          (m.role = .call ∧ isBuiltin m.name = true) := by
  rw [p.lists_declarations.nodup_map_iff]
  constructor
  · rintro ⟨hn, hc, hv⟩
    refine ⟨hn, fun ⟨id, name, role⟩ hm => ?_⟩
    obtain ⟨e, hp, he⟩ := mem_mentions_iff.1 hm
    match role with
    | .variable =>
      obtain rfl := Expr.mention_eq_variable_iff.1 he
      exact .inl ⟨_, mem_declarations_iff.2 (hv id name hp), rfl, trivial⟩
    | .call =>
      obtain ⟨args, rfl⟩ := Expr.mention_eq_call_iff.1 he
      rcases hc id name args hp with hb | ⟨body, hd⟩
      · exact .inr ⟨rfl, hb⟩
      · exact .inl ⟨_, mem_declarations_iff.2 hd, rfl, trivial⟩
  · rintro ⟨hn, hm⟩
    refine ⟨hn, fun id name args hp => ?_, fun id name hp => ?_⟩
    · have hc := hm ⟨id, name, .call⟩ (mem_mentions_iff.2 ⟨_, hp, rfl⟩)
      match hc with
      | .inl ⟨⟨_, .function body⟩, hd, rfl, _⟩ => exact .inr ⟨body, mem_declarations_iff.1 hd⟩
      | .inr ⟨_, hb⟩ => exact .inl hb
    · have hv := hm ⟨id, name, .variable⟩ (mem_mentions_iff.2 ⟨_, hp, rfl⟩)
      match hv with
      | .inl ⟨⟨_, .variable⟩, hd, rfl, _⟩ => exact mem_declarations_iff.1 hd

theorem exists_resolve_iff : (∃ r, p.resolve.1 = .ok r) ↔ p.WellNamed := by
  rw [wellNamed_iff]
  constructor
  · rintro ⟨r, h⟩
    obtain ⟨hs, hn, hl⟩ := resolve_eq_ok h
    refine ⟨hn, fun m hm => ?_⟩
    rw [← hs] at hn ⊢
    have hm' := SymbolTable.exists_link_iff.1 (SymbolTable.exists_linkAll_iff.1 ⟨_, hl⟩ m hm)
    simpa only [SymbolTable.finds_iff hn] using hm'
  · rintro ⟨hn, hm⟩
    have he := SymbolTable.enterAll_of_nodup (t := {}) hn
    have hl : ∃ links, SymbolTable.linkAll ⟨Statement.declarationsAll p.statements⟩
        (Statement.mentionsAll p.statements) [] = .ok links := by
      refine SymbolTable.exists_linkAll_iff.2 fun m hm' => SymbolTable.exists_link_iff.2 ?_
      simpa only [SymbolTable.finds_iff hn] using hm m hm'
    obtain ⟨links, hl⟩ := hl
    exact ⟨⟨⟨Statement.declarationsAll p.statements⟩, links⟩, by simp [resolve, he, hl]⟩

variable (h : p.resolve.1 = .ok r) (hd : p.HasDistinctIds)

include h hd

theorem get_links_iff {id : NodeId} {symbol : SymbolId} :
    r.links.get? id = some symbol ↔ ∃ s, r.symbols.get? symbol = some s ∧ p.Refers id s := by
  obtain ⟨hs, hn, hl⟩ := resolve_eq_ok h
  rw [← hs] at hn
  have hok := SymbolTable.exists_linkAll_iff.1 ⟨_, hl⟩
  -- As the numbers differ, no link takes the place of another one.
  rw [SymbolTable.get_linkAll_iff hl hd]
  simp only [refers_iff, ← hs, ← SymbolTable.finds_iff hn]
  constructor
  · rintro ⟨m, hm, rfl, hlink⟩
    obtain ⟨s, hg, hf⟩ := (SymbolTable.link_eq_some_iff hn hlink).1 rfl
    exact ⟨s, hg, m, hm, rfl, hf⟩
  · rintro ⟨s, hg, m, hm, rfl, hf⟩
    obtain ⟨found, hlink⟩ := hok m hm
    obtain rfl := (SymbolTable.link_eq_some_iff hn hlink).2 ⟨s, hg, hf⟩
    exact ⟨m, hm, rfl, hlink⟩

theorem symbolFor_iff {id : NodeId} {s : Symbol} : r.symbolFor? id = some s ↔ p.Refers id s := by
  obtain ⟨hs, hn, -⟩ := resolve_eq_ok h
  rw [Resolution.symbolFor?, Option.bind_eq_some_iff]
  constructor
  · rintro ⟨symbol, hg, hs'⟩
    obtain ⟨s', hs'', hr⟩ := (get_links_iff h hd).1 hg
    obtain rfl : s = s' := Option.some.inj (hs'.symm.trans hs'')
    exact hr
  · intro hr
    obtain ⟨m, -, -, hm, -⟩ := refers_iff.1 hr
    rw [← hs] at hm
    obtain ⟨symbol, hsym⟩ := List.mem_iff_getElem?.1 hm
    exact ⟨symbol, (get_links_iff h hd).2 ⟨s, hsym, hr⟩, hsym⟩

theorem isLinked_iff {id : NodeId} :
    r.isLinked id = true ↔ (∃ name, p.HasPart (.variable id name)) ∨
      ∃ name args body, p.HasPart (.call id name args) ∧ p.Declares ⟨name, .function body⟩ := by
  have hw := exists_resolve_iff.1 ⟨r, h⟩
  rw [Resolution.isLinked, Option.isSome_iff_exists]
  simp only [symbolFor_iff h hd]
  constructor
  · rintro ⟨s, hr⟩
    cases hr with
    | toVariable hp => exact .inl ⟨_, hp⟩
    | toFunction hp hd => exact .inr ⟨_, _, _, hp, hd⟩
  · rintro (⟨name, hp⟩ | ⟨name, args, body, hp, hd⟩)
    · exact ⟨_, .toVariable hp (hw.variable_declared id name hp)⟩
    · exact ⟨_, .toFunction hp hd⟩

theorem mem_references_iff {id : NodeId} {s : Symbol} :
    (id, s) ∈ r.references ↔ p.Refers id s := by
  have hl := SymbolTable.descending_linkAll (resolve_eq_ok h).2.2 List.Pairwise.nil
  rw [← symbolFor_iff h hd, Resolution.symbolFor?, Option.bind_eq_some_iff]
  simp only [← hl.mem_iff, Resolution.references, List.mem_filterMap, List.mem_reverse,
    Option.map_eq_some_iff, Prod.exists, Prod.mk.injEq]
  constructor
  · rintro ⟨_, symbol, hm, s', hs, rfl, rfl⟩
    exact ⟨symbol, hm, hs⟩
  · rintro ⟨symbol, hm, hs⟩
    exact ⟨id, symbol, hm, s, hs, rfl, rfl⟩

theorem map_fst_references : r.references.map Prod.fst = (r.links.map Prod.fst).reverse := by
  have hl := SymbolTable.descending_linkAll (resolve_eq_ok h).2.2 List.Pairwise.nil
  rw [Resolution.references, List.map_filterMap, ← List.map_reverse,
    List.filterMap_eq_map_iff_forall_eq_some]
  rintro ⟨id, symbol⟩ hm
  have hg := hl.mem_iff.1 (List.mem_reverse.1 hm)
  obtain ⟨s, hs, -⟩ := (get_links_iff h hd).1 hg
  simp [hs]

theorem describes_of_resolve : r.Describes p where
  symbols := (resolve_eq_ok h).1 ▸ p.lists_declarations
  lookup _ _ := by
    obtain ⟨hs, hn, -⟩ := resolve_eq_ok h
    exact SymbolTable.lookup_eq_some_iff (hs ▸ hn)
  link _ _ := get_links_iff h hd
  isLinked _ := isLinked_iff h hd
  symbolFor _ _ := symbolFor_iff h hd
  references _ _ := mem_references_iff h hd
  increasing := by
    have hl := SymbolTable.descending_linkAll (resolve_eq_ok h).2.2 List.Pairwise.nil
    rw [map_fst_references h hd, List.pairwise_reverse, List.pairwise_map]
    exact hl
  count := by
    have hr := congrArg List.length (map_fst_references h hd)
    simpa [Resolution.resolvedCount] using hr

omit h hd in
theorem hasDistinctIds_of_ofString {text : String} (h : (Program.ofString text).1 = .ok p) :
    p.HasDistinctIds := by
  rw [HasDistinctIds, mentions_of_ofString h]
  exact List.nodup_range

end Program

/-- A program whose mentions have different numbers, such as every program that is read from a text,
resolves if and only if it keeps to the naming rules. Its resolution then holds its declarations, a
function before those in its body, and links its variables and its calls of declared functions, and
nothing else, to the declarations of their names. -/
theorem resolve_eq_ok_iff_wellNamed (p : Program) :
    (∀ text, (Program.ofString text).1 = .ok p → p.HasDistinctIds) ∧
      (p.HasDistinctIds → ((∃ r, p.resolve.1 = .ok r) ↔ p.WellNamed) ∧
        ∀ r, p.resolve.1 = .ok r → r.Describes p) :=
  ⟨fun _ => Program.hasDistinctIds_of_ofString,
    fun hd => ⟨Program.exists_resolve_iff, fun _ h => Program.describes_of_resolve h hd⟩⟩

def bodyMention (i j : NodeId) : Program :=
  ⟨[.variable "a" "any" none, .function "f" [.expression (.variable i "a")],
    .expression (.call j "f" [])]⟩

theorem ofString_bodyMention :
    (Program.ofString "let a ; fn f ( ) \x7b a ; \x7d f ( ) ; ").1 = .ok (bodyMention 0 1) := by
  have ha : IsIdentifier "a" := ⟨by decide, by decide, by decide, by decide, by decide⟩
  have hf : IsIdentifier "f" := ⟨by decide, by decide, by decide, by decide, by decide⟩
  have he : IsClosed [.separator ";"] := rfl
  have hb : Statement.RendersAll IsClosed 127 [.expression (.variable 0 "a")]
      [.identifier "a", .separator ";"] := .cons (.expression (.name ha) he) .nil
  have hc : Expr.Renders 127 0 (.call 0 "f" []) [.identifier "f", .separator "(", .separator ")"] :=
    .call hf .nil
  have hr : (bodyMention 0 0).Renders IsClosed Parser.maxNesting _ :=
    .cons (.declaration ha .default .none he)
      (.cons (.function hf hb) (.cons (.expression hc he) .nil))
  have h := ofString_spaced hr
  exact h

theorem resolve_bodyMention :
    (bodyMention 0 1).HasDistinctIds ∧ (bodyMention 0 1).WellNamed ∧
      ∃ r, (bodyMention 0 1).resolve.1 = .ok r ∧ r.Describes (bodyMention 0 1) ∧
        r.references.map (fun reference => (reference.1, reference.2.name)) =
          [(0, "a"), (1, "f")] := by
  have hd := (resolve_eq_ok_iff_wellNamed (bodyMention 0 1)).1 _ ofString_bodyMention
  obtain ⟨hw, hr⟩ := (resolve_eq_ok_iff_wellNamed (bodyMention 0 1)).2 hd
  exact ⟨hd, hw.1 ⟨_, rfl⟩, _, rfl, hr _ rfl, rfl⟩

end FlatScript
