import FlatScript.Resolution

namespace FlatScript

/-- The second expression is the first one or stands somewhere in it. -/
inductive Expr.HasPart : Expr → Expr → Prop
  | self (e : Expr) : Expr.HasPart e e
  | argument {id : NodeId} {name : String} {args : List Expr} {e e' : Expr} (h : e ∈ args)
      (he : Expr.HasPart e e') : Expr.HasPart (.call id name args) e'
  | externalArgument {module function : String} {args : List Expr} {e e' : Expr} (h : e ∈ args)
      (he : Expr.HasPart e e') : Expr.HasPart (.externalCall module function args) e'
  | left {op : Operator} {left right e : Expr} (h : Expr.HasPart left e) :
      Expr.HasPart (.binary op left right) e
  | right {op : Operator} {left right e : Expr} (h : Expr.HasPart right e) :
      Expr.HasPart (.binary op left right) e

inductive Statement.HasPart : Statement → Expr → Prop
  | body {name : String} {body : List Statement} {s : Statement} {e : Expr} (h : s ∈ body)
      (hs : Statement.HasPart s e) : Statement.HasPart (.function name body) e
  | init {name typeName : String} {e e' : Expr} (h : e.HasPart e') :
      Statement.HasPart (.variable name typeName (some e)) e'
  | expression {e e' : Expr} (h : e.HasPart e') : Statement.HasPart (.expression e) e'

inductive Statement.Declares : Statement → Symbol → Prop
  | ofFunction (name : String) (body : List Statement) :
      Statement.Declares (.function name body) ⟨name, .function body⟩
  | inBody {name : String} {body : List Statement} {s : Statement} {symbol : Symbol} (h : s ∈ body)
      (hs : Statement.Declares s symbol) : Statement.Declares (.function name body) symbol
  | ofVariable (name typeName : String) (init : Option Expr) :
      Statement.Declares (.variable name typeName init) ⟨name, .variable⟩

def Program.HasPart (p : Program) (e : Expr) : Prop := ∃ s ∈ p.statements, s.HasPart e

def Program.Declares (p : Program) (symbol : Symbol) : Prop :=
  ∃ s ∈ p.statements, s.Declares symbol

/-- The mention that an expression makes, apart from those that its parts make. -/
def Expr.mention? : Expr → Option Mention
  | .variable id name => some ⟨id, name, .variable⟩
  | .call id name _ => some ⟨id, name, .call⟩
  | _ => none

theorem Expr.mention_eq_variable_iff {e : Expr} {id : NodeId} {name : String} :
    e.mention? = some ⟨id, name, .variable⟩ ↔ e = .variable id name := by
  cases e <;> simp [mention?]

theorem Expr.mention_eq_call_iff {e : Expr} {id : NodeId} {name : String} :
    e.mention? = some ⟨id, name, .call⟩ ↔ ∃ args, e = .call id name args := by
  cases e <;> simp [mention?]

theorem Expr.mentionsAll_eq_flatMap (es : List Expr) :
    Expr.mentionsAll es = es.flatMap Expr.mentions := by
  induction es with
  | nil => rfl
  | cons e es ih => rw [Expr.mentionsAll, List.flatMap_cons, ih]

theorem Statement.mentionsAll_eq_flatMap (ss : List Statement) :
    Statement.mentionsAll ss = ss.flatMap Statement.mentions := by
  induction ss with
  | nil => rfl
  | cons s ss ih => rw [Statement.mentionsAll, List.flatMap_cons, ih]

theorem Statement.declarationsAll_eq_flatMap (ss : List Statement) :
    Statement.declarationsAll ss = ss.flatMap Statement.declarations := by
  induction ss with
  | nil => rfl
  | cons s ss ih => rw [Statement.declarationsAll, List.flatMap_cons, ih]

theorem Expr.mem_mentionsAll_iff {es : List Expr} {m : Mention} :
    m ∈ Expr.mentionsAll es ↔ ∃ e ∈ es, m ∈ e.mentions := by
  rw [Expr.mentionsAll_eq_flatMap, List.mem_flatMap]

theorem Statement.mem_mentionsAll_iff {ss : List Statement} {m : Mention} :
    m ∈ Statement.mentionsAll ss ↔ ∃ s ∈ ss, m ∈ s.mentions := by
  rw [Statement.mentionsAll_eq_flatMap, List.mem_flatMap]

theorem Statement.mem_declarationsAll_iff {ss : List Statement} {symbol : Symbol} :
    symbol ∈ Statement.declarationsAll ss ↔ ∃ s ∈ ss, symbol ∈ s.declarations := by
  rw [Statement.declarationsAll_eq_flatMap, List.mem_flatMap]

theorem Expr.HasPart.mem_mentions {e e' : Expr} (h : e.HasPart e') {m : Mention}
    (hm : m ∈ e'.mentions) : m ∈ e.mentions := by
  induction h with
  | self => exact hm
  | argument h _ ih =>
    rw [Expr.mentions]
    exact List.mem_cons_of_mem _ (Expr.mem_mentionsAll_iff.2 ⟨_, h, ih hm⟩)
  | externalArgument h _ ih =>
    rw [Expr.mentions]
    exact Expr.mem_mentionsAll_iff.2 ⟨_, h, ih hm⟩
  | left _ ih =>
    rw [Expr.mentions]
    exact List.mem_append_left _ (ih hm)
  | right _ ih =>
    rw [Expr.mentions]
    exact List.mem_append_right _ (ih hm)

theorem Expr.mem_mentions_of_mention {e : Expr} {m : Mention} (h : e.mention? = some m) :
    m ∈ e.mentions := by
  cases e <;> simp_all [mention?, mentions]

mutual

theorem Expr.exists_part_of_mem {m : Mention} : ∀ {e : Expr}, m ∈ e.mentions →
    ∃ e', e.HasPart e' ∧ e'.mention? = some m
  | .string _, h | .integer _, h | .decimal _, h | .boolean _, h | .null, h => by
    simp [Expr.mentions] at h
  | .variable id name, h => by
    obtain rfl : m = ⟨id, name, .variable⟩ := by simpa [Expr.mentions] using h
    exact ⟨_, .self _, rfl⟩
  | .call id name args, h => by
    rw [Expr.mentions, List.mem_cons] at h
    rcases h with rfl | h
    · exact ⟨_, .self _, rfl⟩
    · obtain ⟨e, he, e', hp, hm⟩ := Expr.exists_part_of_memAll h
      exact ⟨e', .argument he hp, hm⟩
  | .externalCall _ _ args, h => by
    rw [Expr.mentions] at h
    obtain ⟨e, he, e', hp, hm⟩ := Expr.exists_part_of_memAll h
    exact ⟨e', .externalArgument he hp, hm⟩
  | .binary _ left right, h => by
    rw [Expr.mentions, List.mem_append] at h
    rcases h with h | h
    · obtain ⟨e', hp, hm⟩ := Expr.exists_part_of_mem h
      exact ⟨e', .left hp, hm⟩
    · obtain ⟨e', hp, hm⟩ := Expr.exists_part_of_mem h
      exact ⟨e', .right hp, hm⟩

theorem Expr.exists_part_of_memAll {m : Mention} : ∀ {es : List Expr}, m ∈ Expr.mentionsAll es →
    ∃ e ∈ es, ∃ e', e.HasPart e' ∧ e'.mention? = some m
  | [], h => by simp [Expr.mentionsAll] at h
  | e :: es, h => by
    rw [Expr.mentionsAll, List.mem_append] at h
    rcases h with h | h
    · exact ⟨e, List.mem_cons_self, Expr.exists_part_of_mem h⟩
    · obtain ⟨e', he, hp⟩ := Expr.exists_part_of_memAll h
      exact ⟨e', List.mem_cons_of_mem _ he, hp⟩

end

mutual

theorem Statement.exists_part_of_mem {m : Mention} : ∀ {s : Statement}, m ∈ s.mentions →
    ∃ e, s.HasPart e ∧ e.mention? = some m
  | .importFile _, h | .variable _ _ none, h => by simp [Statement.mentions] at h
  | .function _ body, h => by
    rw [Statement.mentions] at h
    obtain ⟨s, hs, e, hp, hm⟩ := Statement.exists_part_of_memAll h
    exact ⟨e, .body hs hp, hm⟩
  | .variable _ _ (some e), h => by
    rw [Statement.mentions] at h
    obtain ⟨e', hp, hm⟩ := Expr.exists_part_of_mem h
    exact ⟨e', .init hp, hm⟩
  | .expression e, h => by
    rw [Statement.mentions] at h
    obtain ⟨e', hp, hm⟩ := Expr.exists_part_of_mem h
    exact ⟨e', .expression hp, hm⟩

theorem Statement.exists_part_of_memAll {m : Mention} : ∀ {ss : List Statement},
    m ∈ Statement.mentionsAll ss → ∃ s ∈ ss, ∃ e, s.HasPart e ∧ e.mention? = some m
  | [], h => by simp [Statement.mentionsAll] at h
  | s :: ss, h => by
    rw [Statement.mentionsAll, List.mem_append] at h
    rcases h with h | h
    · exact ⟨s, List.mem_cons_self, Statement.exists_part_of_mem h⟩
    · obtain ⟨s', hs, hp⟩ := Statement.exists_part_of_memAll h
      exact ⟨s', List.mem_cons_of_mem _ hs, hp⟩

end

theorem Statement.HasPart.mem_mentions {s : Statement} {e : Expr} (h : s.HasPart e) {m : Mention}
    (hm : m ∈ e.mentions) : m ∈ s.mentions := by
  induction h with
  | body h _ ih =>
    rw [Statement.mentions]
    exact Statement.mem_mentionsAll_iff.2 ⟨_, h, ih hm⟩
  | init h =>
    rw [Statement.mentions]
    exact h.mem_mentions hm
  | expression h =>
    rw [Statement.mentions]
    exact h.mem_mentions hm

theorem Program.mem_mentions_iff {p : Program} {m : Mention} :
    m ∈ Statement.mentionsAll p.statements ↔ ∃ e, p.HasPart e ∧ e.mention? = some m := by
  constructor
  · intro h
    obtain ⟨s, hs, e, hp, hm⟩ := Statement.exists_part_of_memAll h
    exact ⟨e, ⟨s, hs, hp⟩, hm⟩
  · rintro ⟨e, ⟨s, hs, hp⟩, hm⟩
    exact Statement.mem_mentionsAll_iff.2
      ⟨s, hs, hp.mem_mentions (Expr.mem_mentions_of_mention hm)⟩

mutual

theorem Statement.declares_of_mem {symbol : Symbol} : ∀ {s : Statement}, symbol ∈ s.declarations →
    s.Declares symbol
  | .importFile _, h | .expression _, h => by simp [Statement.declarations] at h
  | .function name body, h => by
    rw [Statement.declarations, List.mem_cons] at h
    rcases h with rfl | h
    · exact .ofFunction name body
    · obtain ⟨s, hs, hd⟩ := Statement.exists_declares_of_memAll h
      exact .inBody hs hd
  | .variable name typeName init, h => by
    obtain rfl : symbol = ⟨name, .variable⟩ := by simpa [Statement.declarations] using h
    exact .ofVariable name typeName init

theorem Statement.exists_declares_of_memAll {symbol : Symbol} : ∀ {ss : List Statement},
    symbol ∈ Statement.declarationsAll ss → ∃ s ∈ ss, s.Declares symbol
  | [], h => by simp [Statement.declarationsAll] at h
  | s :: ss, h => by
    rw [Statement.declarationsAll, List.mem_append] at h
    rcases h with h | h
    · exact ⟨s, List.mem_cons_self, Statement.declares_of_mem h⟩
    · obtain ⟨s', hs, hd⟩ := Statement.exists_declares_of_memAll h
      exact ⟨s', List.mem_cons_of_mem _ hs, hd⟩

end

theorem Statement.Declares.mem_declarations {s : Statement} {symbol : Symbol}
    (h : s.Declares symbol) : symbol ∈ s.declarations := by
  induction h with
  | ofFunction => simp [Statement.declarations]
  | inBody h _ ih =>
    rw [Statement.declarations]
    exact List.mem_cons_of_mem _ (Statement.mem_declarationsAll_iff.2 ⟨_, h, ih⟩)
  | ofVariable => simp [Statement.declarations]

theorem Program.mem_declarations_iff {p : Program} {symbol : Symbol} :
    symbol ∈ Statement.declarationsAll p.statements ↔ p.Declares symbol := by
  constructor
  · exact Statement.exists_declares_of_memAll
  · rintro ⟨s, hs, hd⟩
    exact Statement.mem_declarationsAll_iff.2 ⟨s, hs, hd.mem_declarations⟩

end FlatScript
