import FlatScript.Resolution

namespace FlatScript

theorem Links.get_insert (links : Links) (id id' : NodeId) (symbol : SymbolId) :
    (links.insert id symbol).get? id' = if id' = id then some symbol else links.get? id' := by
  have hid : (id == id') = decide (id' = id) := by
    rw [Bool.eq_iff_iff, beq_iff_eq, decide_eq_true_iff]
    exact eq_comm
  induction links with
  | nil => by_cases h : id' = id <;> simp [insert, get?, hid, h]
  | cons link links ih =>
    simp only [insert]
    split
    next => by_cases h : id' = id <;> simp [get?, hid, h]
    split
    next he => by_cases h : id' = id <;> simp [get?, ← he, hid, h]
    next hne =>
      simp only [get?, List.find?_cons] at ih ⊢
      split
      next hl =>
        have h : ¬ id' = id := fun h => hne (h ▸ (beq_iff_eq.1 hl).symm)
        rw [if_neg h]
      next => exact ih

namespace SymbolTable

variable {t t' : SymbolTable} {ss : List Symbol} {ms : List Mention} {links links' : Links}

theorem lookup_isSome_iff {name : String} :
    (t.lookup name).isSome = true ↔ name ∈ t.symbols.map Symbol.name := by
  simp [lookup]

theorem enterAll_eq_ok (h : (enterAll ss t).1 = .ok t') (hn : (t.symbols.map Symbol.name).Nodup) :
    t'.symbols = t.symbols ++ ss ∧ (t'.symbols.map Symbol.name).Nodup := by
  induction ss generalizing t with
  | nil =>
    obtain rfl : t = t' := by simpa [enterAll] using h
    exact ⟨by simp, hn⟩
  | cons s ss ih =>
    rw [enterAll] at h
    by_cases hs : (t.lookup s.name).isSome = true
    · simp [enter, hs] at h
    · rw [enter, if_neg hs] at h
      rw [lookup_isSome_iff] at hs
      have hn' : ((t.symbols ++ [s]).map Symbol.name).Nodup := by
        rw [List.map_append, List.nodup_append]
        refine ⟨hn, by simp, fun a ha b hb hab => ?_⟩
        obtain rfl : b = s.name := by simpa using hb
        exact hs (hab ▸ ha)
      obtain ⟨ht, hd⟩ := ih h hn'
      exact ⟨by simpa using ht, hd⟩

theorem get_linkAll_of_not_mem (h : t.linkAll ms links = .ok links') {id : NodeId}
    (hid : id ∉ ms.map Mention.id) : links'.get? id = links.get? id := by
  fun_induction linkAll t ms links with
  | case1 links =>
    obtain rfl : links = links' := by simpa using h
    rfl
  | case2 => simp at h
  | case3 m ms links hl ih =>
    rw [List.map_cons, List.mem_cons, not_or] at hid
    exact ih h hid.2
  | case4 m ms links symbol hl ih =>
    rw [List.map_cons, List.mem_cons, not_or] at hid
    rw [ih h hid.2, Links.get_insert, if_neg hid.1]

theorem link_of_linkAll (h : t.linkAll ms links = .ok links') (hn : (ms.map Mention.id).Nodup)
    (hl : ∀ m ∈ ms, links.get? m.id = none) : ∀ m ∈ ms, t.link? m = .ok (links'.get? m.id) := by
  fun_induction linkAll t ms links with
  | case1 links => simp
  | case2 => simp at h
  | case3 m ms links hm ih =>
    rw [List.map_cons, List.nodup_cons] at hn
    rw [List.forall_mem_cons] at hl ⊢
    refine ⟨?_, ih h hn.2 hl.2⟩
    rw [hm, get_linkAll_of_not_mem h hn.1, hl.1]
  | case4 m ms links symbol hm ih =>
    rw [List.map_cons, List.nodup_cons] at hn
    rw [List.forall_mem_cons] at hl ⊢
    refine ⟨?_, ih h hn.2 fun m' hm' => ?_⟩
    · rw [hm, get_linkAll_of_not_mem h hn.1, Links.get_insert, if_pos rfl]
    · have hne : m'.id ≠ m.id := fun he => hn.1 (he ▸ List.mem_map_of_mem hm')
      rw [Links.get_insert, if_neg hne, hl.2 m' hm']

theorem symbol_of_lookup {name : String} {id : SymbolId} {s : Symbol} (h : t.lookup name = some id)
    (hs : t.get? id = some s) : s.name = name ∧ s ∈ t.symbols := by
  obtain ⟨hlt, hname, -⟩ := List.findIdx?_eq_some_iff_getElem.1 h
  obtain ⟨hlt', rfl⟩ := List.getElem?_eq_some_iff.1 hs
  exact ⟨by simpa using hname, List.getElem_mem _⟩

theorem function_of_link {id : NodeId} {name : String} {symbol : Option SymbolId}
    (h : t.link? ⟨id, name, .call⟩ = .ok symbol) (hb : Builtin.ofName? name = none) :
    ∃ body, symbol.bind t.get? = some ⟨name, .function body⟩ ∧
      ⟨name, .function body⟩ ∈ t.symbols := by
  have hb' : isBuiltin name = false := by simp [isBuiltin, hb]
  simp only [link?, hb'] at h
  split at h
  next hr _ => simp at hr
  next hr _ => simp at hr
  next hr _ => simp at hr
  next n body _ hs =>
    obtain rfl : t.lookup name = symbol := by simpa using h
    obtain ⟨i, hi, hg⟩ := Option.bind_eq_some_iff.1 hs
    obtain ⟨rfl, hm⟩ := symbol_of_lookup hi hg
    exact ⟨body, hs, hm⟩
  next => simp at h
  next => simp at h

end SymbolTable

def Symbol.body? (s : Symbol) : Option (List Statement) :=
  match s.declaration with
  | .function body => some body
  | .variable => none

/-- The body of the function of a name, wherever in a program it is declared. -/
def Program.function? (p : Program) (name : String) : Option (List Statement) :=
  ((Statement.declarationsAll p.statements).find? (·.name = name)).bind Symbol.body?

theorem find_of_mem {ss : List Symbol} {s : Symbol} (hn : (ss.map Symbol.name).Nodup)
    (hs : s ∈ ss) : ss.find? (·.name = s.name) = some s := by
  induction ss with
  | nil => simp at hs
  | cons s' ss ih =>
    rw [List.map_cons, List.nodup_cons] at hn
    rcases List.mem_cons.1 hs with rfl | hs
    · simp
    · have hne : s'.name ≠ s.name := fun he => hn.1 (he ▸ List.mem_map_of_mem hs)
      simpa [hne] using ih hn.2 hs

mutual

/-- What is mentioned in the body of a function is mentioned where the function is declared. -/
theorem Statement.mentions_of_mem_declarations {name : String} {body : List Statement} {m : Mention}
    (hm : m ∈ Statement.mentionsAll body) : ∀ {s : Statement},
    ⟨name, .function body⟩ ∈ s.declarations → m ∈ s.mentions
  | .importFile _, h => by simp [Statement.declarations] at h
  | .function _ ss, h => by
    rw [Statement.declarations, List.mem_cons] at h
    rw [Statement.mentions]
    rcases h with h | h
    · simp only [Symbol.mk.injEq, Declaration.function.injEq] at h
      exact h.2 ▸ hm
    · exact Statement.mentionsAll_of_mem_declarationsAll hm h
  | .variable _ _ _, h => by simp [Statement.declarations] at h
  | .expression _, h => by simp [Statement.declarations] at h

theorem Statement.mentionsAll_of_mem_declarationsAll {name : String} {body : List Statement}
    {m : Mention} (hm : m ∈ Statement.mentionsAll body) : ∀ {ss : List Statement},
    ⟨name, .function body⟩ ∈ Statement.declarationsAll ss → m ∈ Statement.mentionsAll ss
  | [], h => by simp [Statement.declarationsAll] at h
  | s :: ss, h => by
    rw [Statement.declarationsAll, List.mem_append] at h
    rw [Statement.mentionsAll, List.mem_append]
    rcases h with h | h
    · exact .inl (Statement.mentions_of_mem_declarations hm h)
    · exact .inr (Statement.mentionsAll_of_mem_declarationsAll hm h)

end

namespace Program

variable {p : Program} {r : Resolution}

theorem resolve_eq_ok (h : p.resolve.1 = .ok r) :
    r.symbols.symbols = Statement.declarationsAll p.statements ∧
      ((Statement.declarationsAll p.statements).map Symbol.name).Nodup ∧
      r.symbols.linkAll (Statement.mentionsAll p.statements) [] = .ok r.links := by
  rcases he : SymbolTable.enterAll (Statement.declarationsAll p.statements) {} with ⟨e | t, ws⟩
  · simp [resolve, he] at h
  · obtain ⟨ht, hn⟩ := SymbolTable.enterAll_eq_ok (by rw [he]) (by simp)
    cases hl : t.linkAll (Statement.mentionsAll p.statements) [] with
    | error e => simp [resolve, he, hl] at h
    | ok links =>
      obtain rfl : ⟨t, links⟩ = r := by simpa [resolve, he, hl] using h
      rw [List.nil_append] at ht
      exact ⟨ht, ht ▸ hn, hl⟩

theorem function_eq_some_iff (h : p.resolve.1 = .ok r) {name : String} {body : List Statement} :
    p.function? name = some body ↔
      ⟨name, .function body⟩ ∈ Statement.declarationsAll p.statements := by
  constructor
  · intro hf
    obtain ⟨⟨name', declaration⟩, hs, hb⟩ := Option.bind_eq_some_iff.1 hf
    obtain rfl : name' = name := by simpa using List.find?_some hs
    match declaration, hb with
    | .variable, hb => simp [Symbol.body?] at hb
    | .function body', hb =>
      obtain rfl : body' = body := by simpa [Symbol.body?] using hb
      exact List.mem_of_find?_eq_some hs
  · intro hm
    rw [function?, find_of_mem (resolve_eq_ok h).2.1 hm]
    rfl

theorem functionFor_of_mem (h : p.resolve.1 = .ok r)
    (hn : ((Statement.mentionsAll p.statements).map Mention.id).Nodup) {id : NodeId}
    {name : String} (hm : ⟨id, name, .call⟩ ∈ Statement.mentionsAll p.statements)
    (hb : Builtin.ofName? name = none) :
    ∃ body, r.functionFor? id = some body ∧ p.function? name = some body := by
  obtain ⟨hs, -, hl⟩ := resolve_eq_ok h
  have hlink := SymbolTable.link_of_linkAll hl hn (fun _ _ => rfl) _ hm
  obtain ⟨body, hbody, hmem⟩ := SymbolTable.function_of_link hlink hb
  rw [hs] at hmem
  refine ⟨body, ?_, (function_eq_some_iff h).2 hmem⟩
  simp [Resolution.functionFor?, Resolution.symbolFor?, hbody]

end Program

end FlatScript
