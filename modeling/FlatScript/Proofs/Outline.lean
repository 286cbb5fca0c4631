import FlatScript.Program.Outline
import FlatScript.Proofs.Parsing
import FlatScript.Proofs.Title

namespace FlatScript

theorem toList_outlineLine (d : Nat) (text : String) :
    (outlineLine d text).toList = Indented.line d text.toList := by
  simp [outlineLine, Indented.line]

/-! ### Outlines of expressions -/

def noMark : NodeId → String := fun _ => ""

namespace Expr

section

variable (mark : NodeId → String)

mutual

/-- The tree that an outline shows, with the marks of the mentions behind their titles. -/
def indented : Expr → Indented
  | .string s => .node (title (.string s)).toList []
  | .integer n => .node (title (.integer n)).toList []
  | .decimal x => .node (title (.decimal x)).toList []
  | .boolean b => .node (title (.boolean b)).toList []
  | .null => .node (title .null).toList []
  | .variable id name => .node (title (.variable id name) ++ mark id).toList []
  | .call id name args => .node (title (.call id name args) ++ mark id).toList (indentedAll args)
  | .externalCall module function args =>
    .node (title (.externalCall module function args)).toList (indentedAll args)
  | .binary op left right =>
    .node (title (.binary op left right)).toList [left.indented, right.indented]

def indentedAll : List Expr → List Indented
  | [] => []
  | e :: es => e.indented :: indentedAll es

end

end

mutual

theorem toList_outline (linked : Option (NodeId → Bool)) (d : Nat) : ∀ e : Expr,
    (e.outline linked d).toList = (e.indented (linkStatus linked)).text d
  | .string _ | .integer _ | .decimal _ | .boolean _ | .null | .variable _ _ => by
    simp [outline, toList_outlineLine, indented, Indented.text, Indented.textAll]
  | .call _ _ args | .externalCall _ _ args => by
    simp [outline, toList_outlineLine, indented, Indented.text,
      toList_outlineAll linked (d + 1) args]
  | .binary _ left right => by
    simp [outline, toList_outlineLine, indented, Indented.text, Indented.textAll,
      toList_outline linked (d + 1) left, toList_outline linked (d + 1) right]

theorem toList_outlineAll (linked : Option (NodeId → Bool)) (d : Nat) : ∀ es : List Expr,
    (outlineAll linked d es).toList = Indented.textAll d (indentedAll (linkStatus linked) es)
  | [] => rfl
  | e :: es => by
    rw [outlineAll, String.toList_append, toList_outline linked d e,
      toList_outlineAll linked d es]
    rfl

end

theorem isLabel_marked {e : Expr} (h : e.IsLegible) {id : NodeId} :
    Indented.IsLabel (e.title ++ noMark id).toList := by
  rw [noMark, String.append_empty]
  exact isLabel_title h

mutual

theorem isLegible_indented : ∀ {e : Expr}, e.IsLegible → (e.indented noMark).IsLegible
  | .string _, h | .integer _, h | .decimal _, h | .boolean _, h | .null, h =>
    ⟨isLabel_title h, trivial⟩
  | .variable _ _, h => ⟨isLabel_marked h, trivial⟩
  | .call _ _ _, h => ⟨isLabel_marked h, areLegible_indentedAll h.2⟩
  | .externalCall _ _ _, h => ⟨isLabel_title h, areLegible_indentedAll h.2.2⟩
  | .binary _ _ _, h =>
    ⟨isLabel_title h, isLegible_indented h.1, isLegible_indented h.2, trivial⟩

theorem areLegible_indentedAll : ∀ {es : List Expr},
    AreLegible es → Indented.AreLegible (indentedAll noMark es)
  | [], _ => trivial
  | _ :: _, h => ⟨isLegible_indented h.1, areLegible_indentedAll h.2⟩

end

theorem exists_indented_eq (e : Expr) : ∃ ts, e.indented noMark = .node e.title.toList ts := by
  cases e <;> exact ⟨_, by simp only [indented, noMark, String.append_empty]; rfl⟩

theorem alike_of_indented_eq {e e' : Expr} (h : e.IsLegible) (h' : e'.IsLegible)
    (hi : e.indented noMark = e'.indented noMark) : e.Alike e' := by
  obtain ⟨ts, he⟩ := e.exists_indented_eq
  obtain ⟨ts', he'⟩ := e'.exists_indented_eq
  rw [he, he'] at hi
  exact alike_of_title_eq h h' (String.toList_inj.1 (Indented.node.inj hi).1)

theorem length_mentions_eq {k : NodeId} {e e' : Expr} (h : e.numbered k = e'.numbered k) :
    e.mentions.length = e'.mentions.length := by
  have hl := congrArg List.length (e.mentions_numbered k)
  rw [h, e'.mentions_numbered k] at hl
  simpa using hl.symm

mutual

theorem numbered_eq_of_indented_eq (k : NodeId) : ∀ {e e' : Expr}, e.IsLegible → e'.IsLegible →
    e.indented noMark = e'.indented noMark → e.numbered k = e'.numbered k
  | .string _, _, h, h', hi | .integer _, _, h, h', hi | .decimal _, _, h, h', hi
  | .boolean _, _, h, h', hi | .null, _, h, h', hi | .variable _ _, _, h, h', hi => by
    cases alike_of_indented_eq h h' hi
    rfl
  | .call _ _ args, _, h, h', hi => by
    cases alike_of_indented_eq h h' hi
    have ha := (Indented.node.inj hi).2
    rw [numbered, numbered, numberedAll_eq_of_indentedAll_eq (k + 1) h.2 h'.2 ha]
  | .externalCall _ _ args, _, h, h', hi => by
    cases alike_of_indented_eq h h' hi
    have ha := (Indented.node.inj hi).2
    rw [numbered, numbered, numberedAll_eq_of_indentedAll_eq k h.2.2 h'.2.2 ha]
  | .binary _ left right, _, h, h', hi => by
    cases alike_of_indented_eq h h' hi
    obtain ⟨hl, hr⟩ := List.cons.inj (Indented.node.inj hi).2
    have hl := numbered_eq_of_indented_eq k h.1 h'.1 hl
    have hr := (List.cons.inj hr).1
    rw [numbered, numbered, hl, length_mentions_eq hl,
      numbered_eq_of_indented_eq _ h.2 h'.2 hr]

theorem numberedAll_eq_of_indentedAll_eq (k : NodeId) : ∀ {es es' : List Expr},
    AreLegible es → AreLegible es' → indentedAll noMark es = indentedAll noMark es' →
    numberedAll k es = numberedAll k es'
  | [], [], _, _, _ => rfl
  | e :: es, e' :: es', h, h', hi => by
    obtain ⟨he, hes⟩ := List.cons.inj hi
    have he := numbered_eq_of_indented_eq k h.1 h'.1 he
    rw [numberedAll, numberedAll, he, length_mentions_eq he,
      numberedAll_eq_of_indentedAll_eq _ h.2 h'.2 hes]

end

theorem isLegible_of_writes {e : Expr} {l : Lexeme} (h : l.Writes e) : e.IsLegible := by
  cases h with
  | string hs => exact hs
  | @integer n hn =>
    change 0 ≤ (Int64.ofNat n).toInt
    rw [Int64.toInt_ofNat_of_lt hn]
    exact Int.natCast_nonneg n
  | decimal | boolean | null => trivial

mutual

theorem Renders.isLegible : ∀ {n min : Nat} {e : Expr} {ls : List Lexeme},
    e.Renders n min ls → e.IsLegible
  | _, _, _, _, .literal h => isLegible_of_writes h
  | _, _, _, _, .name h => h
  | _, _, _, _, .call h ha => ⟨h, ha.areLegible⟩
  | _, _, _, _, .externalCall hm hf ha => ⟨hm, hf, ha.areLegible⟩
  | _, _, _, _, .binary _ hl hr => ⟨hl.isLegible, hr.isLegible⟩
  | _, _, _, _, .group h => h.isLegible

theorem RendersArguments.areLegible : ∀ {n : Nat} {es : List Expr} {ls : List Lexeme},
    Expr.RendersArguments n es ls → AreLegible es
  | _, _, _, .nil => trivial
  | _, _, _, .single h => ⟨h.isLegible, trivial⟩
  | _, _, _, .cons h hs => ⟨h.isLegible, hs.areLegible⟩

end

end Expr

/-! ### Outlines of statements -/

namespace Statement

section

variable (mark : NodeId → String)

mutual

def indented : Statement → Indented
  | .importFile path => .node (title (.importFile path)).toList []
  | .function name body =>
    .node (title (.function name body)).toList [.node "Block".toList (indentedAll body)]
  | .variable name typeName init =>
    .node (title (.variable name typeName init)).toList
      [init.elim (.node "no initialization".toList []) (Expr.indented mark)]
  | .expression e => .node (title (.expression e)).toList [e.indented mark]

def indentedAll : List Statement → List Indented
  | [] => []
  | s :: ss => s.indented :: indentedAll ss

end

end

mutual

theorem toList_outline (linked : Option (NodeId → Bool)) (d : Nat) : ∀ s : Statement,
    (s.outline linked d).toList = (s.indented (linkStatus linked)).text d
  | .importFile _ | .variable _ _ none => by
    simp [outline, toList_outlineLine, indented, Indented.text, Indented.textAll]
  | .function _ body => by
    simp [outline, toList_outlineLine, indented, Indented.text, Indented.textAll,
      toList_outlineAll linked (d + 2) body]
  | .variable _ _ (some e) | .expression e => by
    simp [outline, toList_outlineLine, indented, Indented.text, Indented.textAll,
      e.toList_outline linked (d + 1)]

theorem toList_outlineAll (linked : Option (NodeId → Bool)) (d : Nat) : ∀ ss : List Statement,
    (outlineAll linked d ss).toList = Indented.textAll d (indentedAll (linkStatus linked) ss)
  | [] => rfl
  | s :: ss => by
    rw [outlineAll, String.toList_append, toList_outline linked d s,
      toList_outlineAll linked d ss]
    rfl

end

mutual

theorem isLegible_indented : ∀ {s : Statement}, s.IsLegible → (s.indented noMark).IsLegible
  | .importFile _, h => ⟨isLabel_title h, trivial⟩
  | .function _ _, h => ⟨isLabel_title h, ⟨.plain (by decide), areLegible_indentedAll h.2⟩, trivial⟩
  | .variable _ _ none, h => ⟨isLabel_title h, ⟨.plain (by decide), trivial⟩, trivial⟩
  | .variable _ _ (some _), h =>
    ⟨isLabel_title h, Expr.isLegible_indented (h.2.2 _ rfl), trivial⟩
  | .expression _, h => ⟨isLabel_title h, Expr.isLegible_indented h, trivial⟩

theorem areLegible_indentedAll : ∀ {ss : List Statement},
    AreLegible ss → Indented.AreLegible (indentedAll noMark ss)
  | [], _ => trivial
  | _ :: _, h => ⟨isLegible_indented h.1, areLegible_indentedAll h.2⟩

end

theorem exists_indented_eq (s : Statement) : ∃ ts, s.indented noMark = .node s.title.toList ts := by
  cases s <;> exact ⟨_, rfl⟩

theorem alike_of_indented_eq {s s' : Statement} (h : s.IsLegible) (h' : s'.IsLegible)
    (hi : s.indented noMark = s'.indented noMark) : s.Alike s' := by
  obtain ⟨ts, hs⟩ := s.exists_indented_eq
  obtain ⟨ts', hs'⟩ := s'.exists_indented_eq
  rw [hs, hs'] at hi
  exact alike_of_title_eq h h' (String.toList_inj.1 (Indented.node.inj hi).1)

theorem length_mentions_eq {k : NodeId} {s s' : Statement} (h : s.numbered k = s'.numbered k) :
    s.mentions.length = s'.mentions.length := by
  have hl := congrArg List.length (s.mentions_numbered k)
  rw [h, s'.mentions_numbered k] at hl
  simpa using hl.symm

theorem init_eq_of_indented_eq (k : NodeId) {init init' : Option Expr}
    (h : ∀ e ∈ init, e.IsLegible) (h' : ∀ e ∈ init', e.IsLegible)
    (hi : init.elim (.node "no initialization".toList []) (Expr.indented noMark) =
      init'.elim (.node "no initialization".toList []) (Expr.indented noMark)) :
    init.map (·.numbered k) = init'.map (·.numbered k) := by
  have hne : ∀ e : Expr, e.IsLegible → e.indented noMark ≠ .node "no initialization".toList [] := by
    intro e he hi
    obtain ⟨ts, ht⟩ := e.exists_indented_eq
    rw [ht] at hi
    exact Expr.title_ne_of_isLegible he (String.toList_inj.1 (Indented.node.inj hi).1)
  cases init with
  | none =>
    cases init' with
    | none => rfl
    | some e' => exact absurd hi.symm (hne e' (h' e' rfl))
  | some e =>
    cases init' with
    | none => exact absurd hi (hne e (h e rfl))
    | some e' => exact congrArg some (Expr.numbered_eq_of_indented_eq k (h e rfl) (h' e' rfl) hi)

mutual

theorem numbered_eq_of_indented_eq (k : NodeId) : ∀ {s s' : Statement}, s.IsLegible →
    s'.IsLegible → s.indented noMark = s'.indented noMark → s.numbered k = s'.numbered k
  | .importFile _, _, h, h', hi => by
    cases alike_of_indented_eq h h' hi
    rfl
  | .function _ body, _, h, h', hi => by
    cases alike_of_indented_eq h h' hi
    have hb := (List.cons.inj (Indented.node.inj hi).2).1
    rw [numbered, numbered,
      numberedAll_eq_of_indentedAll_eq k h.2 h'.2 (Indented.node.inj hb).2]
  | .variable _ _ init, _, h, h', hi => by
    cases alike_of_indented_eq h h' hi
    have hi := (List.cons.inj (Indented.node.inj hi).2).1
    rw [numbered, numbered, init_eq_of_indented_eq k h.2.2 h'.2.2 hi]
  | .expression e, _, h, h', hi => by
    cases alike_of_indented_eq h h' hi
    have he := (List.cons.inj (Indented.node.inj hi).2).1
    rw [numbered, numbered, Expr.numbered_eq_of_indented_eq k h h' he]

theorem numberedAll_eq_of_indentedAll_eq (k : NodeId) : ∀ {ss ss' : List Statement},
    AreLegible ss → AreLegible ss' → indentedAll noMark ss = indentedAll noMark ss' →
    numberedAll k ss = numberedAll k ss'
  | [], [], _, _, _ => rfl
  | s :: ss, s' :: ss', h, h', hi => by
    obtain ⟨hs, hss⟩ := List.cons.inj hi
    have hs := numbered_eq_of_indented_eq k h.1 h'.1 hs
    rw [numberedAll, numberedAll, hs, length_mentions_eq hs,
      numberedAll_eq_of_indentedAll_eq _ h.2 h'.2 hss]

end

mutual

/-- The paths that are imported, in functions as well. -/
def importPaths : Statement → List String
  | .importFile path => [path]
  | .function _ body => importPathsAll body
  | .variable _ _ _ | .expression _ => []

def importPathsAll : List Statement → List String
  | [] => []
  | s :: ss => s.importPaths ++ importPathsAll ss

end

theorem isLegible_of_renders_declaration {name typeName : String} {init : Option Expr}
    {ts is : List Lexeme} {n : Nat} (h : IsIdentifier name) (ht : RendersType typeName ts)
    (hi : RendersInit n init is) : (Statement.variable name typeName init).IsLegible := by
  refine ⟨h, ?_, ?_⟩
  · cases ht with
    | default => decide
    | written ht => exact ht.not_mem rfl
  · cases hi with
    | none => exact nofun
    | some he =>
      rintro _ ⟨⟩
      exact he.isLegible

mutual

theorem Renders.isLegible {Ending : List Lexeme → Prop} : ∀ {n : Nat} {s : Statement}
    {ls : List Lexeme}, s.Renders Ending n ls → (∀ path ∈ s.importPaths, '\n' ∉ path.toList) →
    s.IsLegible
  | _, _, _, .importFile _ _ _, hp => hp _ List.mem_cons_self
  | _, _, _, .function h hb, hp => ⟨h, hb.areLegible hp⟩
  | _, _, _, .declaration h ht hi _, _ => isLegible_of_renders_declaration h ht hi
  | _, _, _, .expression h _, _ => h.isLegible

theorem RendersAll.areLegible {Ending : List Lexeme → Prop} : ∀ {n : Nat} {ss : List Statement}
    {ls : List Lexeme}, Statement.RendersAll Ending n ss ls →
    (∀ path ∈ importPathsAll ss, '\n' ∉ path.toList) → AreLegible ss
  | _, _, _, .nil, _ => trivial
  | _, _, _, .cons h hs, hp =>
    have ⟨hp, hps⟩ := List.forall_mem_append.1 hp
    ⟨h.isLegible hp, hs.areLegible hps⟩

end

end Statement

/-! ### Outlines of programs -/

namespace Program

def importPaths (p : Program) : List String := Statement.importPathsAll p.statements

theorem toList_outline (p : Program) (linked : Option (NodeId → Bool)) :
    (p.outline linked).toList =
      "Program\n".toList ++
        Indented.textAll 1 (Statement.indentedAll (linkStatus linked) p.statements) := by
  rw [outline, String.toList_append, Statement.toList_outlineAll]

theorem areLegible_of_ofString {text : String} {p : Program} (h : (Program.ofString text).1 = .ok p)
    (hp : ∀ path ∈ p.importPaths, '\n' ∉ path.toList) : Statement.AreLegible p.statements := by
  obtain ⟨ts, l, -, hr⟩ := exists_renders_of_ofString h
  exact Statement.RendersAll.areLegible hr hp

end Program

/-- Programs that are read, and that import from no path with a line break in it, are the same if
their outlines without links are, down to the numbers of their mentions. -/
theorem eq_of_outline_eq {text text' : String} {p p' : Program}
    (h : (Program.ofString text).1 = .ok p) (h' : (Program.ofString text').1 = .ok p')
    (hp : ∀ path ∈ p.importPaths, '\n' ∉ path.toList)
    (hp' : ∀ path ∈ p'.importPaths, '\n' ∉ path.toList)
    (ho : p.outline none = p'.outline none) : p = p' := by
  have hl := Program.areLegible_of_ofString h hp
  have hl' := Program.areLegible_of_ofString h' hp'
  have ht : Indented.textAll 1 (Statement.indentedAll noMark p.statements) =
      Indented.textAll 1 (Statement.indentedAll noMark p'.statements) := by
    rw [← String.toList_inj, p.toList_outline, p'.toList_outline] at ho
    exact List.append_cancel_left ho
  have hi := Indented.eq_of_textAll_eq (Statement.areLegible_indentedAll hl)
    (Statement.areLegible_indentedAll hl') ht
  calc
    p = p.numbered := (Program.numbered_eq_self (mentions_of_ofString h)).symm
    _ = p'.numbered := congrArg Program.mk (Statement.numberedAll_eq_of_indentedAll_eq 0 hl hl' hi)
    _ = p' := Program.numbered_eq_self (mentions_of_ofString h')

/-- Parentheses that need not be there are in no outline, nor in the program; a string with a line
break in it takes two lines. -/
theorem eq_of_outline_eq_import : ∃ p p' : Program,
    (Program.ofString "import \"a.rs\" ; f ( \"\n\tnull\" , 1 ) ; ").1 = .ok p ∧
      (Program.ofString "import \"a.rs\" ; f ( ( \"\n\tnull\" ) , 1 ) ; ").1 = .ok p' ∧ p = p' := by
  have hf : IsIdentifier "f" := ⟨by decide, by decide, by decide, by decide, by decide⟩
  have hs : Lexeme.Writes (.string "\n\tnull") (.string "\n\tnull") := .string (by decide)
  have h1 : Lexeme.Writes ⟨.integerLiteral, "1"⟩ (.integer 1) := .integer (n := 1) (by decide)
  have he : IsClosed [.separator ";"] := rfl
  have hi {n : Nat} : Statement.Renders IsClosed n (.importFile "a.rs")
      [.keyword "import", .string "a.rs", .separator ";"] :=
    .importFile (by decide) (by decide) he
  have hr : Program.Renders
      ⟨[.importFile "a.rs", .expression (.call 0 "f" [.string "\n\tnull", .integer 1])]⟩ IsClosed
      Parser.maxNesting _ :=
    .cons hi (.cons (.expression (.call hf (.cons (.literal hs) (.single (.literal h1)))) he) .nil)
  have hr' : Program.Renders
      ⟨[.importFile "a.rs", .expression (.call 0 "f" [.string "\n\tnull", .integer 1])]⟩ IsClosed
      Parser.maxNesting _ :=
    .cons hi (.cons (.expression (.call hf (.cons (.group (.literal hs)) (.single (.literal h1))))
      he) .nil)
  have h := ofString_spaced hr
  have h' := ofString_spaced hr'
  exact ⟨_, _, h, h', eq_of_outline_eq h h' (by decide) (by decide) rfl⟩

/-- With a line break in it, a path can look like two imports. -/
example : (Program.mk [.importFile "a.rs\n\tImport b.rs"]).outline none =
    (Program.mk [.importFile "a.rs", .importFile "b.rs"]).outline none := by decide

end FlatScript
