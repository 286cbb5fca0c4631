import FlatScript.Resolution

namespace FlatScript

mutual

/-- The expression with its mentions numbered from `k` on, a call before its arguments. -/
def Expr.numbered (k : NodeId) : Expr → Expr
  | .string s => .string s
  | .integer n => .integer n
  | .decimal x => .decimal x
  | .boolean b => .boolean b
  | .null => .null
  | .variable _ name => .variable k name
  | .call _ name args => .call k name (Expr.numberedAll (k + 1) args)
  | .externalCall module function args => .externalCall module function (Expr.numberedAll k args)
  | .binary op left right =>
    .binary op (left.numbered k) (right.numbered (k + left.mentions.length))

def Expr.numberedAll (k : NodeId) : List Expr → List Expr
  | [] => []
  | e :: es => e.numbered k :: Expr.numberedAll (k + e.mentions.length) es

end

mutual

def Statement.numbered (k : NodeId) : Statement → Statement
  | .importFile path => .importFile path
  | .function name body => .function name (Statement.numberedAll k body)
  | .variable name typeName init => .variable name typeName (init.map (·.numbered k))
  | .expression e => .expression (e.numbered k)

def Statement.numberedAll (k : NodeId) : List Statement → List Statement
  | [] => []
  | s :: ss => s.numbered k :: Statement.numberedAll (k + s.mentions.length) ss

end

def Program.numbered (p : Program) : Program := ⟨Statement.numberedAll 0 p.statements⟩

mutual

theorem Expr.mentions_numbered (k : NodeId) : ∀ e : Expr,
    (e.numbered k).mentions.map Mention.id = List.range' k e.mentions.length
  | .string _ | .integer _ | .decimal _ | .boolean _ | .null | .variable _ _ => rfl
  | .call _ _ args => by
    simp [Expr.numbered, Expr.mentions, List.range'_succ, Expr.mentionsAll_numberedAll (k + 1) args]
  | .externalCall _ _ args => by
    simpa [Expr.numbered, Expr.mentions] using Expr.mentionsAll_numberedAll k args
  | .binary _ left right => by
    have hl := Expr.mentions_numbered k left
    have hr := Expr.mentions_numbered (k + left.mentions.length) right
    simp [Expr.numbered, Expr.mentions, hl, hr, List.range'_append_1]

theorem Expr.mentionsAll_numberedAll (k : NodeId) : ∀ es : List Expr,
    (Expr.mentionsAll (Expr.numberedAll k es)).map Mention.id =
      List.range' k (Expr.mentionsAll es).length
  | [] => rfl
  | e :: es => by
    have he := Expr.mentions_numbered k e
    have hes := Expr.mentionsAll_numberedAll (k + e.mentions.length) es
    simp [Expr.numberedAll, Expr.mentionsAll, he, hes, List.range'_append_1]

end

mutual

theorem Statement.mentions_numbered (k : NodeId) : ∀ s : Statement,
    (s.numbered k).mentions.map Mention.id = List.range' k s.mentions.length
  | .importFile _ => rfl
  | .function _ body => by
    simpa [Statement.numbered, Statement.mentions] using
      Statement.mentionsAll_numberedAll k body
  | .variable _ _ none => rfl
  | .variable _ _ (some e) => by
    simpa [Statement.numbered, Statement.mentions] using e.mentions_numbered k
  | .expression e => by
    simpa [Statement.numbered, Statement.mentions] using e.mentions_numbered k

theorem Statement.mentionsAll_numberedAll (k : NodeId) : ∀ ss : List Statement,
    (Statement.mentionsAll (Statement.numberedAll k ss)).map Mention.id =
      List.range' k (Statement.mentionsAll ss).length
  | [] => rfl
  | s :: ss => by
    have hs := Statement.mentions_numbered k s
    have hss := Statement.mentionsAll_numberedAll (k + s.mentions.length) ss
    simp [Statement.numberedAll, Statement.mentionsAll, hs, hss, List.range'_append_1]

end

theorem Statement.mentions_variable (name typeName : String) (init : Option Expr) :
    (Statement.variable name typeName init).mentions = init.elim [] Expr.mentions := by
  cases init with
  | none => rfl
  | some => rfl

theorem Program.mentions_numbered (p : Program) :
    (Statement.mentionsAll p.numbered.statements).map Mention.id =
      List.range (Statement.mentionsAll p.statements).length := by
  rw [List.range_eq_range']
  exact Statement.mentionsAll_numberedAll 0 p.statements

theorem Mention.ids_append {k : NodeId} {ms ms' : List Mention}
    (h : (ms ++ ms').map Mention.id = List.range' k (ms ++ ms').length) :
    ms.map Mention.id = List.range' k ms.length ∧
      ms'.map Mention.id = List.range' (k + ms.length) ms'.length := by
  rw [List.map_append, List.length_append, ← List.range'_append_1] at h
  exact List.append_inj h (by simp)

mutual

theorem Expr.numbered_eq_self {k : NodeId} : ∀ {e : Expr},
    e.mentions.map Mention.id = List.range' k e.mentions.length → e.numbered k = e
  | .string _, _ | .integer _, _ | .decimal _, _ | .boolean _, _ | .null, _ => rfl
  | .variable id name, h => by
    have hid : id = k := (List.cons.inj h).1
    rw [Expr.numbered, hid]
  | .call id name args, h => by
    have hid : id = k := (List.cons.inj h).1
    have ha : (Expr.mentionsAll args).map Mention.id =
        List.range' (k + 1) (Expr.mentionsAll args).length := (List.cons.inj h).2
    rw [Expr.numbered, Expr.numberedAll_eq_self ha, hid]
  | .externalCall _ _ args, h => by rw [Expr.numbered, Expr.numberedAll_eq_self h]
  | .binary _ left right, h => by
    obtain ⟨hl, hr⟩ := Mention.ids_append h
    rw [Expr.numbered, Expr.numbered_eq_self hl, Expr.numbered_eq_self hr]

theorem Expr.numberedAll_eq_self {k : NodeId} : ∀ {es : List Expr},
    (Expr.mentionsAll es).map Mention.id = List.range' k (Expr.mentionsAll es).length →
    Expr.numberedAll k es = es
  | [], _ => rfl
  | e :: es, h => by
    obtain ⟨he, hes⟩ := Mention.ids_append h
    rw [Expr.numberedAll, Expr.numbered_eq_self he, Expr.numberedAll_eq_self hes]

end

mutual

theorem Statement.numbered_eq_self {k : NodeId} : ∀ {s : Statement},
    s.mentions.map Mention.id = List.range' k s.mentions.length → s.numbered k = s
  | .importFile _, _ | .variable _ _ none, _ => rfl
  | .function _ body, h => by rw [Statement.numbered, Statement.numberedAll_eq_self h]
  | .variable _ _ (some e), h => by
    rw [Statement.numbered, Option.map_some, e.numbered_eq_self h]
  | .expression e, h => by rw [Statement.numbered, e.numbered_eq_self h]

theorem Statement.numberedAll_eq_self {k : NodeId} : ∀ {ss : List Statement},
    (Statement.mentionsAll ss).map Mention.id = List.range' k (Statement.mentionsAll ss).length →
    Statement.numberedAll k ss = ss
  | [], _ => rfl
  | s :: ss, h => by
    obtain ⟨hs, hss⟩ := Mention.ids_append h
    rw [Statement.numberedAll, Statement.numbered_eq_self hs, Statement.numberedAll_eq_self hss]

end

theorem Program.numbered_eq_self {p : Program}
    (h : (Statement.mentionsAll p.statements).map Mention.id =
      List.range (Statement.mentionsAll p.statements).length) : p.numbered = p := by
  rw [List.range_eq_range'] at h
  rw [Program.numbered, Statement.numberedAll_eq_self h]

mutual

def Expr.shifted (k : Nat) : Expr → Expr
  | .string s => .string s
  | .integer n => .integer n
  | .decimal x => .decimal x
  | .boolean b => .boolean b
  | .null => .null
  | .variable id name => .variable (id + k) name
  | .call id name args => .call (id + k) name (Expr.shiftedAll k args)
  | .externalCall module function args => .externalCall module function (Expr.shiftedAll k args)
  | .binary op left right => .binary op (left.shifted k) (right.shifted k)

def Expr.shiftedAll (k : Nat) : List Expr → List Expr
  | [] => []
  | e :: es => e.shifted k :: Expr.shiftedAll k es

end

mutual

def Statement.shifted (k : Nat) : Statement → Statement
  | .importFile path => .importFile path
  | .function name body => .function name (Statement.shiftedAll k body)
  | .variable name typeName init => .variable name typeName (init.map (·.shifted k))
  | .expression e => .expression (e.shifted k)

def Statement.shiftedAll (k : Nat) : List Statement → List Statement
  | [] => []
  | s :: ss => s.shifted k :: Statement.shiftedAll k ss

end

theorem Expr.shiftedAll_eq_map (k : Nat) (es : List Expr) :
    Expr.shiftedAll k es = es.map (·.shifted k) := by
  induction es with
  | nil => rfl
  | cons e es ih => rw [Expr.shiftedAll, ih, List.map_cons]

theorem Statement.shiftedAll_eq_map (k : Nat) (ss : List Statement) :
    Statement.shiftedAll k ss = ss.map (·.shifted k) := by
  induction ss with
  | nil => rfl
  | cons s ss ih => rw [Statement.shiftedAll, ih, List.map_cons]

mutual

theorem Expr.shifted_zero : ∀ e : Expr, e.shifted 0 = e
  | .string _ | .integer _ | .decimal _ | .boolean _ | .null | .variable _ _ => rfl
  | .call _ _ args => by rw [Expr.shifted, Expr.shiftedAll_zero args, Nat.add_zero]
  | .externalCall _ _ args => by rw [Expr.shifted, Expr.shiftedAll_zero args]
  | .binary _ left right => by rw [Expr.shifted, Expr.shifted_zero left, Expr.shifted_zero right]

theorem Expr.shiftedAll_zero : ∀ es : List Expr, Expr.shiftedAll 0 es = es
  | [] => rfl
  | e :: es => by rw [Expr.shiftedAll, Expr.shifted_zero e, Expr.shiftedAll_zero es]

end

mutual

theorem Statement.shifted_zero : ∀ s : Statement, s.shifted 0 = s
  | .importFile _ | .variable _ _ none => rfl
  | .function _ body => by rw [Statement.shifted, Statement.shiftedAll_zero body]
  | .variable _ _ (some e) => by rw [Statement.shifted, Option.map_some, e.shifted_zero]
  | .expression e => by rw [Statement.shifted, e.shifted_zero]

theorem Statement.shiftedAll_zero : ∀ ss : List Statement, Statement.shiftedAll 0 ss = ss
  | [] => rfl
  | s :: ss => by rw [Statement.shiftedAll, Statement.shifted_zero s, Statement.shiftedAll_zero ss]

end

end FlatScript
