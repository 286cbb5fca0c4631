import Mathlib.Logic.Equiv.Basic
import FlatScript.Proofs.Linking

namespace FlatScript

/-- Other names for all names: different ones for different names, and their own for the
builtins. -/
structure Renaming where
  apply : String → String
  injective : Function.Injective apply
  apply_builtin : ∀ b : Builtin, apply b.name = b.name

section Definitions

variable (ρ : Renaming)

mutual

/-- The expression with its mentions renamed; external functions keep their names. -/
def Expr.renamed : Expr → Expr
  | .variable id name => .variable id (ρ.apply name)
  | .call id name args => .call id (ρ.apply name) (Expr.renamedAll args)
  | .externalCall module function args => .externalCall module function (Expr.renamedAll args)
  | .binary op left right => .binary op left.renamed right.renamed
  | .string s => .string s
  | .integer n => .integer n
  | .decimal x => .decimal x
  | .boolean b => .boolean b
  | .null => .null

def Expr.renamedAll : List Expr → List Expr
  | [] => []
  | e :: es => e.renamed :: Expr.renamedAll es

end

mutual

def Statement.renamed : Statement → Statement
  | .importFile path => .importFile path
  | .function name body => .function (ρ.apply name) (Statement.renamedAll body)
  | .variable name typeName init =>
    .variable (ρ.apply name) typeName (init.map (Expr.renamed ρ))
  | .expression e => .expression (e.renamed ρ)

def Statement.renamedAll : List Statement → List Statement
  | [] => []
  | s :: ss => s.renamed :: Statement.renamedAll ss

end

def Program.renamed (p : Program) : Program := ⟨Statement.renamedAll ρ p.statements⟩

def Declaration.renamed : Declaration → Declaration
  | .function body => .function (Statement.renamedAll ρ body)
  | .variable => .variable

def Symbol.renamed (s : Symbol) : Symbol := ⟨ρ.apply s.name, s.declaration.renamed ρ⟩

def Mention.renamed (m : Mention) : Mention := { m with name := ρ.apply m.name }

def SymbolTable.renamed (t : SymbolTable) : SymbolTable := ⟨t.symbols.map (Symbol.renamed ρ)⟩

def Resolution.renamed (r : Resolution) : Resolution := { r with symbols := r.symbols.renamed ρ }

def ResolveError.renamed : ResolveError → ResolveError
  | .duplicateSymbol name => .duplicateSymbol (ρ.apply name)
  | .undefinedFunction name => .undefinedFunction (ρ.apply name)
  | .notAFunction name => .notAFunction (ρ.apply name)
  | .undefinedVariable name => .undefinedVariable (ρ.apply name)
  | .notAVariable name => .notAVariable (ρ.apply name)

end Definitions

def Renaming.swap (a b : String) (ha : isBuiltin a = false) (hb : isBuiltin b = false) :
    Renaming where
  apply := Equiv.swap a b
  injective := (Equiv.swap a b).injective
  apply_builtin := fun c => by
    have hc : isBuiltin c.name = true := by rw [isBuiltin, Builtin.ofName_name, Option.isSome_some]
    refine Equiv.swap_apply_of_ne_of_ne (fun h => ?_) (fun h => ?_)
    · rw [h, ha] at hc
      exact nomatch hc
    · rw [h, hb] at hc
      exact nomatch hc

variable {ρ : Renaming}

theorem Renaming.apply_eq_builtin_iff {name : String} {b : Builtin} :
    ρ.apply name = b.name ↔ name = b.name := by
  constructor
  · intro h
    exact ρ.injective (h.trans (ρ.apply_builtin b).symm)
  · rintro rfl
    exact ρ.apply_builtin b

theorem Builtin.ofName_renamed (ρ : Renaming) (name : String) :
    ofName? (ρ.apply name) = ofName? name := by
  have hiff : ∀ b, ofName? (ρ.apply name) = some b ↔ ofName? name = some b := by
    intro b
    constructor
    · intro h
      have hn : name = b.name := ρ.apply_eq_builtin_iff.1 (name_of_ofName h).symm
      rw [hn, ofName_name]
    · intro h
      rw [← name_of_ofName h, ρ.apply_builtin, ofName_name]
  exact Option.ext hiff

theorem Renaming.apply_of_isBuiltin (ρ : Renaming) {name : String} (h : isBuiltin name = true) :
    ρ.apply name = name := by
  obtain ⟨b, hb⟩ := Option.isSome_iff_exists.1 h
  rw [← Builtin.name_of_ofName hb, ρ.apply_builtin]

theorem isBuiltin_renamed (ρ : Renaming) (name : String) :
    isBuiltin (ρ.apply name) = isBuiltin name := by
  rw [isBuiltin, Builtin.ofName_renamed, isBuiltin]

/-! ### Declarations and mentions -/

theorem Expr.renamedAll_eq_map (ρ : Renaming) (es : List Expr) :
    Expr.renamedAll ρ es = es.map (Expr.renamed ρ) := by
  induction es with
  | nil => rfl
  | cons e es ih => rw [Expr.renamedAll, ih, List.map_cons]

theorem Statement.renamedAll_eq_map (ρ : Renaming) (ss : List Statement) :
    Statement.renamedAll ρ ss = ss.map (Statement.renamed ρ) := by
  induction ss with
  | nil => rfl
  | cons s ss ih => rw [Statement.renamedAll, ih, List.map_cons]

mutual

theorem Expr.mentions_renamed : ∀ e : Expr,
    (e.renamed ρ).mentions = e.mentions.map (Mention.renamed ρ)
  | .string _ | .integer _ | .decimal _ | .boolean _ | .null | .variable _ _ => rfl
  | .call _ _ args => congrArg _ (Expr.mentionsAll_renamedAll args)
  | .externalCall _ _ args => Expr.mentionsAll_renamedAll args
  | .binary _ left right => by
    rw [Expr.renamed, Expr.mentions, Expr.mentions_renamed left, Expr.mentions_renamed right,
      ← List.map_append, Expr.mentions]

theorem Expr.mentionsAll_renamedAll : ∀ es : List Expr,
    Expr.mentionsAll (Expr.renamedAll ρ es) = (Expr.mentionsAll es).map (Mention.renamed ρ)
  | [] => rfl
  | e :: es => by
    rw [Expr.renamedAll, Expr.mentionsAll, Expr.mentions_renamed e, Expr.mentionsAll_renamedAll es,
      ← List.map_append, Expr.mentionsAll]

end

mutual

theorem Statement.mentions_renamed : ∀ s : Statement,
    (s.renamed ρ).mentions = s.mentions.map (Mention.renamed ρ)
  | .importFile _ | .variable _ _ none => rfl
  | .function _ body => Statement.mentionsAll_renamedAll body
  | .variable _ _ (some e) | .expression e => e.mentions_renamed

theorem Statement.mentionsAll_renamedAll : ∀ ss : List Statement,
    Statement.mentionsAll (Statement.renamedAll ρ ss) =
      (Statement.mentionsAll ss).map (Mention.renamed ρ)
  | [] => rfl
  | s :: ss => by
    rw [Statement.renamedAll, Statement.mentionsAll, Statement.mentions_renamed s,
      Statement.mentionsAll_renamedAll ss, ← List.map_append, Statement.mentionsAll]

end

mutual

theorem Statement.declarations_renamed : ∀ s : Statement,
    (s.renamed ρ).declarations = s.declarations.map (Symbol.renamed ρ)
  | .importFile _ | .variable _ _ _ | .expression _ => rfl
  | .function _ body => congrArg _ (Statement.declarationsAll_renamedAll body)

theorem Statement.declarationsAll_renamedAll : ∀ ss : List Statement,
    Statement.declarationsAll (Statement.renamedAll ρ ss) =
      (Statement.declarationsAll ss).map (Symbol.renamed ρ)
  | [] => rfl
  | s :: ss => by
    rw [Statement.renamedAll, Statement.declarationsAll, Statement.declarations_renamed s,
      Statement.declarationsAll_renamedAll ss, ← List.map_append, Statement.declarationsAll]

end

/-! ### The passes of resolution -/

namespace SymbolTable

variable {t : SymbolTable}

theorem lookup_renamed (t : SymbolTable) (name : String) :
    (t.renamed ρ).lookup (ρ.apply name) = t.lookup name := by
  have hname : ∀ s : Symbol, ((s.renamed ρ).name == ρ.apply name) = (s.name == name) := by
    intro s
    rw [Bool.eq_iff_iff, beq_iff_eq, beq_iff_eq]
    exact ρ.injective.eq_iff
  simp only [lookup, renamed, List.findIdx?_map, Function.comp_def, hname]

theorem get_renamed (t : SymbolTable) (id : SymbolId) :
    (t.renamed ρ).get? id = (t.get? id).map (Symbol.renamed ρ) := List.getElem?_map

/-- What is warned about when the symbol is entered. -/
def entryWarnings (s : Symbol) : List Warning :=
  match s.declaration with
  | .function _ => if isBuiltin s.name then [.shadowedByBuiltin s.name] else []
  | .variable => []

theorem enterAll_cons (s : Symbol) (ss : List Symbol) (t : SymbolTable) :
    enterAll (s :: ss) t =
      match t.enter s with
      | .error e => (.error e, entryWarnings s)
      | .ok t => ((enterAll ss t).1, entryWarnings s ++ (enterAll ss t).2) := rfl

theorem entryWarnings_renamed (ρ : Renaming) (s : Symbol) :
    entryWarnings (s.renamed ρ) = entryWarnings s := by
  obtain ⟨name, body | _⟩ := s
  · cases hb : isBuiltin name with
    | false =>
      have hb' : isBuiltin (ρ.apply name) = false := (isBuiltin_renamed ρ name).trans hb
      simp [entryWarnings, Symbol.renamed, Declaration.renamed, hb, hb']
    | true =>
      simp only [entryWarnings, Symbol.renamed, Declaration.renamed, ρ.apply_of_isBuiltin hb]
  · rfl

theorem enter_renamed (ρ : Renaming) (t : SymbolTable) (s : Symbol) :
    (t.renamed ρ).enter (s.renamed ρ) =
      ((t.enter s).map (SymbolTable.renamed ρ)).mapError (ResolveError.renamed ρ) := by
  have hl : (t.renamed ρ).lookup (s.renamed ρ).name = t.lookup s.name := t.lookup_renamed s.name
  rw [enter, hl, enter]
  split
  next => rfl
  next => simp [Except.map, Except.mapError, renamed]

theorem enterAll_renamed (ρ : Renaming) (ss : List Symbol) (t : SymbolTable) :
    enterAll (ss.map (Symbol.renamed ρ)) (t.renamed ρ) =
      (((enterAll ss t).1.map (SymbolTable.renamed ρ)).mapError (ResolveError.renamed ρ),
        (enterAll ss t).2) := by
  induction ss generalizing t with
  | nil => rfl
  | cons s ss ih =>
    rw [List.map_cons, enterAll_cons, enterAll_cons, enter_renamed, entryWarnings_renamed]
    rcases t.enter s with e | t'
    · rfl
    · have h := ih t'
      simp only [Except.map, Except.mapError, h]

theorem link_renamed (ρ : Renaming) (t : SymbolTable) (m : Mention) :
    (t.renamed ρ).link? (m.renamed ρ) = (t.link? m).mapError (ResolveError.renamed ρ) := by
  obtain ⟨id, name, role⟩ := m
  have hl : (t.renamed ρ).lookup (ρ.apply name) = t.lookup name := t.lookup_renamed name
  have hs : ((t.lookup name).bind (t.renamed ρ).get?) =
      ((t.lookup name).bind t.get?).map (Symbol.renamed ρ) := by
    rw [Option.map_bind]
    exact Option.bind_congr fun id _ => t.get_renamed id
  have hb := isBuiltin_renamed ρ name
  simp only [link?, Mention.renamed, hl, hs, hb]
  rcases (t.lookup name).bind t.get? with _ | ⟨name', body | _⟩ <;> cases role
  case none.call | some.variable.call =>
    cases isBuiltin name
    all_goals rfl
  all_goals rfl

theorem linkAll_renamed (t : SymbolTable) (ms : List Mention) (links : Links) :
    (t.renamed ρ).linkAll (ms.map (Mention.renamed ρ)) links =
      (t.linkAll ms links).mapError (ResolveError.renamed ρ) := by
  induction ms generalizing links with
  | nil => rfl
  | cons m ms ih =>
    rw [List.map_cons, linkAll, link_renamed, linkAll]
    rcases t.link? m with e | _ | symbol
    · rfl
    · exact ih links
    · exact ih _

end SymbolTable

theorem Program.resolve_renamed (p : Program) :
    (p.renamed ρ).resolve =
      ((p.resolve.1.map (Resolution.renamed ρ)).mapError (ResolveError.renamed ρ), p.resolve.2) := by
  have he := SymbolTable.enterAll_renamed ρ (Statement.declarationsAll p.statements) {}
  have hempty : SymbolTable.renamed ρ {} = {} := rfl
  rw [hempty] at he
  simp only [resolve, renamed, Statement.declarationsAll_renamedAll,
    Statement.mentionsAll_renamedAll, he]
  rcases (SymbolTable.enterAll (Statement.declarationsAll p.statements) {}).1 with e | t
  · rfl
  · have hl := t.linkAll_renamed (ρ := ρ) (Statement.mentionsAll p.statements) []
    simp only [Except.map, Except.mapError, hl]
    rcases t.linkAll (Statement.mentionsAll p.statements) [] with e | links
    · rfl
    · rfl

example :
    (Program.renamed (.swap "f" "g" rfl rfl) ⟨[.expression (.call 0 "f" [])]⟩).resolve.1 =
      .error (.undefinedFunction "g") := rfl

end FlatScript
