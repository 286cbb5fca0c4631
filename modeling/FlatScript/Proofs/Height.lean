import FlatScript.Proofs.Parsing
import FlatScript.Proofs.Part

namespace FlatScript

mutual

/-- The longest way from an expression through its parts to a leaf. A step to the left operand of an
operator counts `left`, any other step counts one. -/
def Expr.heightBy (left : Nat) : Expr → Nat
  | .string _ | .integer _ | .decimal _ | .boolean _ | .null | .variable _ _ => 0
  | .call _ _ args | .externalCall _ _ args => Expr.heightByAll left args
  | .binary _ l r => max (l.heightBy left + left) (r.heightBy left + 1)

def Expr.heightByAll (left : Nat) : List Expr → Nat
  | [] => 0
  | e :: es => max (e.heightBy left + 1) (Expr.heightByAll left es)

end

def Expr.height (e : Expr) : Nat := e.heightBy 1

/-- How many operators there are on the way from an expression through left operands only. -/
def Expr.leftRun : Expr → Nat
  | .binary _ l _ => l.leftRun + 1
  | _ => 0

theorem Expr.height_binary (op : Operator) (l r : Expr) :
    (Expr.binary op l r).height = max l.height r.height + 1 :=
  Nat.add_max_add_right l.height r.height 1

theorem Expr.heightBy_zero_binary (op : Operator) (l r : Expr) :
    (Expr.binary op l r).heightBy 0 = max (l.heightBy 0) (r.heightBy 0 + 1) := rfl

section Heights

variable {left k n : Nat}

theorem Expr.heightByAll_le_iff {es : List Expr} :
    Expr.heightByAll left es ≤ n ↔ ∀ e ∈ es, e.heightBy left + 1 ≤ n := by
  induction es with
  | nil => simp [heightByAll]
  | cons e es ih => rw [heightByAll, Nat.max_le, ih, List.forall_mem_cons]

theorem Expr.heightBy_lt_of_mem {e : Expr} {es : List Expr} (h : e ∈ es) :
    e.heightBy left < Expr.heightByAll left es :=
  Expr.heightByAll_le_iff.1 (Nat.le_refl _) e h

theorem Expr.HasPart.heightBy_le {e e' : Expr} (h : e.HasPart e') :
    e'.heightBy left ≤ e.heightBy left := by
  induction h with
  | self => exact Nat.le_refl _
  | argument h _ ih | externalArgument h _ ih =>
    rw [Expr.heightBy]
    exact Nat.le_trans ih (Nat.le_of_lt (Expr.heightBy_lt_of_mem h))
  | left _ ih =>
    rw [Expr.heightBy]
    omega
  | right _ ih =>
    rw [Expr.heightBy]
    omega

mutual

/-- Between two steps that are none to a left operand there is a run of steps to left operands. -/
theorem Expr.height_le_of_run : ∀ {e : Expr}, (∀ e', e.HasPart e' → e'.leftRun ≤ k) →
    e.height ≤ e.heightBy 0 * (k + 1) + e.leftRun
  | .string _, _ | .integer _, _ | .decimal _, _ | .boolean _, _ | .null, _ | .variable _ _, _ =>
    Nat.zero_le _
  | .call _ _ args, h => Expr.heightByAll_le_of_run fun _ he _ hp => h _ (.argument he hp)
  | .externalCall _ _ args, h =>
    Expr.heightByAll_le_of_run fun _ he _ hp => h _ (.externalArgument he hp)
  | .binary op l r, h => by
    have hl : l.height ≤ l.heightBy 0 * (k + 1) + l.leftRun :=
      Expr.height_le_of_run fun _ hp => h _ (.left hp)
    have hr : r.height ≤ r.heightBy 0 * (k + 1) + r.leftRun :=
      Expr.height_le_of_run fun _ hp => h _ (.right hp)
    -- The step to the left operand goes on with the run, the one to the right operand ends it.
    have hk : r.leftRun ≤ k := h r (.right (.self r))
    have hlm := Nat.mul_le_mul_right (k + 1) (Nat.le_max_left (l.heightBy 0) (r.heightBy 0 + 1))
    have hrm := Nat.mul_le_mul_right (k + 1) (Nat.le_max_right (l.heightBy 0) (r.heightBy 0 + 1))
    rw [Nat.succ_mul] at hrm
    rw [Expr.height_binary, Expr.heightBy_zero_binary, Expr.leftRun]
    omega

theorem Expr.heightByAll_le_of_run : ∀ {es : List Expr},
    (∀ e ∈ es, ∀ e', e.HasPart e' → e'.leftRun ≤ k) →
    Expr.heightByAll 1 es ≤ Expr.heightByAll 0 es * (k + 1)
  | [], _ => Nat.zero_le _
  | e :: es, h => by
    have he : e.height ≤ e.heightBy 0 * (k + 1) + e.leftRun :=
      Expr.height_le_of_run fun _ hp => h e List.mem_cons_self _ hp
    have hes := Expr.heightByAll_le_of_run fun e' hm => h e' (List.mem_cons_of_mem e hm)
    have hk : e.leftRun ≤ k := h e List.mem_cons_self e (.self e)
    have hem := Nat.mul_le_mul_right (k + 1)
      (Nat.le_max_left (e.heightBy 0 + 1) (Expr.heightByAll 0 es))
    have hesm := Nat.mul_le_mul_right (k + 1)
      (Nat.le_max_right (e.heightBy 0 + 1) (Expr.heightByAll 0 es))
    rw [Nat.succ_mul] at hem
    rw [Expr.height] at he
    rw [Expr.heightByAll, Expr.heightByAll]
    omega

end

end Heights

/-- How many precedences of operators there are from `min` on. -/
def Operator.levelsFrom (min : Nat) : Nat := (all.map precedence).eraseDups.countP (min ≤ ·)

theorem Operator.levelsFrom_zero : levelsFrom 0 = 11 := by decide

theorem Operator.levelsFrom_anti {min m : Nat} (h : min ≤ m) : levelsFrom m ≤ levelsFrom min := by
  refine List.countP_mono_left fun p _ hp => ?_
  simp only [decide_eq_true_eq] at hp ⊢
  exact Nat.le_trans h hp

theorem Operator.levelsFrom_precedence (op : Operator) :
    levelsFrom (op.precedence + 1) + 1 = levelsFrom op.precedence := by
  cases op <;> decide

mutual

/-- A step to a right operand takes one of the precedences that are left; a step to an argument
takes a level, and all the precedences are left again. -/
theorem Expr.Renders.heightBy_le : ∀ {n min : Nat} {e : Expr} {ls : List Lexeme},
    e.Renders n min ls → e.heightBy 0 ≤ 12 * n + Operator.levelsFrom min
  | _, _, _, _, .literal h => by cases h <;> exact Nat.zero_le _
  | _, _, _, _, .name _ => Nat.zero_le _
  | _, _, _, _, .call _ ha => Nat.le_trans ha.heightByAll_le (Nat.le_add_right _ _)
  | _, _, _, _, .externalCall _ _ ha => Nat.le_trans ha.heightByAll_le (Nat.le_add_right _ _)
  | _, _, _, _, @Expr.Renders.binary _ _ op _ _ _ _ h hl hr => by
    have hl := hl.heightBy_le
    have hr := hr.heightBy_le
    have ho := op.levelsFrom_precedence
    have hm := Operator.levelsFrom_anti h
    rw [Expr.heightBy_zero_binary]
    omega
  | _, min, _, _, .group h => by
    have h := h.heightBy_le
    rw [Operator.levelsFrom_zero] at h
    omega

theorem Expr.RendersArguments.heightByAll_le : ∀ {n : Nat} {es : List Expr} {ls : List Lexeme},
    Expr.RendersArguments n es ls → Expr.heightByAll 0 es ≤ 12 * n
  | _, _, _, .nil => Nat.zero_le _
  | _, _, _, .single h => by
    have h := h.heightBy_le
    rw [Operator.levelsFrom_zero] at h
    rw [Expr.heightByAll, Expr.heightByAll]
    omega
  | _, _, _, .cons h hs => by
    have h := h.heightBy_le
    have hs := hs.heightByAll_le
    rw [Operator.levelsFrom_zero] at h
    rw [Expr.heightByAll]
    omega

end

theorem Statement.RendersAll.exists_renders {Ending : List Lexeme → Prop} :
    ∀ {n : Nat} {ss : List Statement} {ls : List Lexeme}, Statement.RendersAll Ending n ss ls →
      ∀ s ∈ ss, ∃ ls', s.Renders Ending n ls'
  | _, _, _, .nil => by simp
  | _, _, _, .cons h hs => List.forall_mem_cons.2 ⟨⟨_, h⟩, hs.exists_renders⟩

theorem Expr.HasPart.heightBy_lt {n : Nat} {e e' : Expr} {ls : List Lexeme} (hp : e.HasPart e')
    (hr : e.Renders n 0 ls) : e'.heightBy 0 < 12 * (n + 1) := by
  have hr := hr.heightBy_le
  have hp : e'.heightBy 0 ≤ e.heightBy 0 := hp.heightBy_le
  rw [Operator.levelsFrom_zero] at hr
  omega

/-- The expressions of a statement are one level deeper than the statement. -/
theorem Statement.HasPart.heightBy_lt {Ending : List Lexeme → Prop} {n : Nat} {s : Statement}
    {e : Expr} {ls : List Lexeme} (hp : s.HasPart e) (h : s.Renders Ending n ls) :
    e.heightBy 0 < 12 * n := by
  induction hp generalizing n ls with
  | body hs _ ih =>
    cases h with
    | function _ hb =>
      obtain ⟨ls', h⟩ := hb.exists_renders _ hs
      have hlt := ih h
      omega
  | init hp =>
    cases h with
    | declaration _ _ hi _ =>
      cases hi with
      | some hr => exact hp.heightBy_lt hr
  | expression hp =>
    cases h with
    | expression hr _ => exact hp.heightBy_lt hr

/-- On the ways into the expressions of a program that is read, there are at most 1535 steps that
are none to a left operand: 128 levels, each with a step for each of the eleven precedences and one
to an argument, of which the last level has none. So the height of an expression is bounded as soon
as the runs of steps to left operands in it are. -/
theorem height_le_of_leftRun_le {text : String} {p : Program}
    (h : (Program.ofString text).1 = .ok p) {e : Expr} (he : p.HasPart e) :
    e.heightBy 0 ≤ 1535 ∧
      ∀ k, (∀ e', e.HasPart e' → e'.leftRun ≤ k) → e.height ≤ 1535 * (k + 1) + k := by
  obtain ⟨ts, _, -, hr⟩ := exists_renders_of_ofString h
  obtain ⟨s, hs, hp⟩ := he
  obtain ⟨ls, hr⟩ := hr.exists_renders s hs
  have hn : e.heightBy 0 < 12 * 128 := hp.heightBy_lt hr
  have hb : e.heightBy 0 ≤ 1535 := Nat.le_of_lt_succ hn
  refine ⟨hb, fun k hk => ?_⟩
  calc e.height ≤ e.heightBy 0 * (k + 1) + e.leftRun := Expr.height_le_of_run hk
    _ ≤ 1535 * (k + 1) + k := Nat.add_le_add (Nat.mul_le_mul_right _ hb) (hk e (.self e))

theorem height_product_le :
    (Program.ofString "let x = ( a + 1 ) * f ( ) ; ").1 = .ok (product 0 1) ∧
      ∃ e, (product 0 1).HasPart e ∧ (∀ e', e.HasPart e' → e'.leftRun ≤ 2) ∧
        e.heightBy 0 ≤ 1535 ∧ e.height ≤ 1535 * (2 + 1) + 2 := by
  have hp : (product 0 1).HasPart
      (.binary .multiply (.binary .add (.variable 0 "a") (.integer 1)) (.call 1 "f" [])) :=
    ⟨_, List.mem_singleton_self _, .init (.self _)⟩
  have hk : ∀ e', Expr.HasPart
      (.binary .multiply (.binary .add (.variable 0 "a") (.integer 1)) (.call 1 "f" [])) e' →
        e'.leftRun ≤ 2 := by
    intro e' h
    cases h with
    | self => decide
    | left h =>
      cases h with
      | self => decide
      | left h => cases h; decide
      | right h => cases h; decide
    | right h =>
      cases h with
      | self => decide
      | argument h => cases h
  have h := height_le_of_leftRun_le ofString_product hp
  exact ⟨ofString_product, _, hp, hk, h.1, h.2 2 hk⟩

def sumOfOnes : Nat → Expr
  | 0 => .integer 1
  | k + 1 => .binary .add (sumOfOnes k) (.integer 1)

theorem height_sumOfOnes (k : Nat) : (sumOfOnes k).height = k := by
  induction k with
  | zero => rfl
  | succ k ih =>
    rw [sumOfOnes, Expr.height_binary, ih]
    exact congrArg Nat.succ (Nat.max_zero k)

theorem numbered_sumOfOnes (i : NodeId) (k : Nat) : (sumOfOnes k).numbered i = sumOfOnes k := by
  induction k with
  | zero => rfl
  | succ k ih => rw [sumOfOnes, Expr.numbered, ih, Expr.numbered]

theorem exists_renders_sumOfOnes (n k : Nat) : ∃ ls, (sumOfOnes k).Renders n 12 ls := by
  have h1 : Lexeme.Writes ⟨.integerLiteral, "1"⟩ (.integer 1) := .integer (n := 1) (by decide)
  induction k with
  | zero => exact ⟨_, .literal h1⟩
  | succ k ih =>
    obtain ⟨ls, h⟩ := ih
    exact ⟨_, .binary (Nat.le_refl _) h (.literal h1)⟩

theorem exists_ofString_sumOfOnes (k : Nat) :
    ∃ text, (Program.ofString text).1 = .ok ⟨[.expression (sumOfOnes k)]⟩ := by
  obtain ⟨ls, h⟩ := exists_renders_sumOfOnes 127 k
  have hs : Statement.Renders IsClosed 128 (.expression (sumOfOnes k)) _ :=
    .expression (h.mono (Nat.zero_le _)) rfl
  have hp : Program.Renders ⟨[.expression (sumOfOnes k)]⟩ IsClosed Parser.maxNesting _ :=
    .cons hs .nil
  have hn : (Program.mk [.expression (sumOfOnes k)]).numbered = ⟨[.expression (sumOfOnes k)]⟩ := by
    simp [Program.numbered, Statement.numberedAll, Statement.numbered, numbered_sumOfOnes]
  exact ⟨_, hn ▸ ofString_spaced hp⟩

/-- The expressions of the programs that are read have no common bound on their heights. -/
theorem not_exists_height_bound :
    ¬ ∃ bound, ∀ text p e, (Program.ofString text).1 = .ok p → p.HasPart e → e.height ≤ bound := by
  rintro ⟨bound, h⟩
  obtain ⟨text, ht⟩ := exists_ofString_sumOfOnes (bound + 1)
  have hp : Program.HasPart ⟨[.expression (sumOfOnes (bound + 1))]⟩ (sumOfOnes (bound + 1)) :=
    ⟨_, List.mem_singleton_self _, .expression (.self _)⟩
  have hb := h text _ _ ht hp
  rw [height_sumOfOnes] at hb
  exact Nat.not_succ_le_self bound hb

end FlatScript
