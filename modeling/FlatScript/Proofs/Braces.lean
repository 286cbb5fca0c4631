import FlatScript.Proofs.Accepting

namespace FlatScript

namespace Lexeme

/-- As many bodies are closed in the lexemes as are opened. -/
def Balanced (ls : List Lexeme) : Prop :=
  ls.count (.separator "\x7b") = ls.count (.separator "\x7d")

/-- Fewer than `n` bodies are open behind the lexemes. -/
def OpensFewer (n : Nat) (ls : List Lexeme) : Prop :=
  ls.count (.separator "\x7b") < ls.count (.separator "\x7d") + n

instance (n : Nat) : DecidablePred (OpensFewer n) := fun _ => inferInstanceAs (Decidable (_ < _))

variable {ls rs : List Lexeme} {l : Lexeme} {n : Nat}

theorem Balanced.append (h : Balanced ls) (h' : Balanced rs) : Balanced (ls ++ rs) := by
  rw [Balanced, List.count_append, List.count_append, h, h']

theorem Balanced.cons (ho : l ≠ .separator "\x7b") (hc : l ≠ .separator "\x7d")
    (h : Balanced ls) : Balanced (l :: ls) := by
  rw [Balanced, List.count_cons_of_ne ho, List.count_cons_of_ne hc, h]

theorem balanced_nil : Balanced [] := rfl

theorem balanced_singleton (ho : l ≠ .separator "\x7b") (hc : l ≠ .separator "\x7d") :
    Balanced [l] := balanced_nil.cons ho hc

theorem Balanced.cons_of_kind (hk : l.kind ≠ .separator) (h : Balanced ls) :
    Balanced (l :: ls) := by
  refine h.cons ?_ ?_
  · rintro rfl
    exact hk rfl
  · rintro rfl
    exact hk rfl

theorem Balanced.parenthesized (h : Balanced ls) :
    Balanced (.separator "(" :: ls ++ [.separator ")"]) :=
  (h.cons (by decide) (by decide)).append (balanced_singleton (by decide) (by decide))

theorem Balanced.opensFewer (hl : Balanced ls) (h : OpensFewer n (ls ++ rs)) : OpensFewer n rs := by
  unfold OpensFewer Balanced at *
  rw [List.count_append, List.count_append] at h
  omega

theorem OpensFewer.pos_of_balanced (h : OpensFewer n ls) (hl : Balanced ls) : 0 < n := by
  unfold OpensFewer Balanced at *
  omega

theorem OpensFewer.of_opening (h : OpensFewer n (.separator "\x7b" :: ls)) :
    OpensFewer (n - 1) ls := by
  unfold OpensFewer at *
  rw [List.count_cons_self, List.count_cons_of_ne (by decide)] at h
  omega

end Lexeme

open Lexeme (balanced_nil balanced_singleton)

mutual

theorem Expr.Renders.balanced : ∀ {n min : Nat} {e : Expr} {ls : List Lexeme},
    e.Renders n min ls → Lexeme.Balanced ls
  | _, _, _, _, .literal h => balanced_nil.cons_of_kind (Parser.kind_of_writes h).2.1
  | _, _, _, _, .name _ => balanced_nil.cons_of_kind nofun
  | _, _, _, _, .call _ ha => ha.balanced.parenthesized.cons_of_kind nofun
  | _, _, _, _, @Expr.Renders.externalCall _ _ _ function _ _ _ _ ha => by
    have h : Lexeme.Balanced (.identifier function :: _) :=
      ha.balanced.parenthesized.cons_of_kind nofun
    exact (h.cons (by decide) (by decide)).cons_of_kind nofun
  | _, _, _, _, .binary _ hl hr =>
    hl.balanced.append (hr.balanced.cons_of_kind (by simp [Lexeme.operator]))
  | _, _, _, _, .group h => h.balanced.parenthesized

theorem Expr.RendersArguments.balanced : ∀ {n : Nat} {es : List Expr} {ls : List Lexeme},
    Expr.RendersArguments n es ls → Lexeme.Balanced ls
  | _, _, _, .nil => balanced_nil
  | _, _, _, .single h => h.balanced
  | _, _, _, .cons h hs => h.balanced.append (hs.balanced.cons (by decide) (by decide))

end

theorem RendersType.balanced {typeName : String} {ls : List Lexeme} (h : RendersType typeName ls) :
    Lexeme.Balanced ls := by
  cases h with
  | default => exact balanced_nil
  | @written typeName _ =>
    have h : Lexeme.Balanced [.identifier typeName] := balanced_nil.cons_of_kind nofun
    exact h.cons (by decide) (by decide)

theorem RendersInit.balanced {n : Nat} {init : Option Expr} {ls : List Lexeme}
    (h : RendersInit n init ls) : Lexeme.Balanced ls := by
  cases h with
  | none => exact balanced_nil
  | some h => exact h.balanced.cons_of_kind (by simp [Lexeme.operator])

theorem IsClosable.balanced {ls : List Lexeme} (h : IsClosable ls) : Lexeme.Balanced ls := by
  obtain rfl | rfl := h
  · exact balanced_nil
  · exact balanced_singleton (by decide) (by decide)

mutual

theorem Statement.Renders.balanced : ∀ {n : Nat} {s : Statement} {ls : List Lexeme},
    s.Renders IsClosable n ls → Lexeme.Balanced ls
  | _, _, _, .importFile _ _ he =>
    ((IsClosable.balanced he).cons_of_kind (by simp [Lexeme.string])).cons (by decide) (by decide)
  | _, _, _, @Statement.Renders.function _ _ name _ ls _ hb => by
    have h : ls.count (.separator "\x7b") = ls.count (.separator "\x7d") := hb.balanced
    simpa [Lexeme.Balanced, Lexeme.keyword, Lexeme.identifier, Lexeme.separator] using h
  | _, _, _, .declaration _ ht hi he =>
    (((ht.balanced.cons_of_kind (by simp [Lexeme.identifier])).cons (by decide)
      (by decide)).append hi.balanced).append (IsClosable.balanced he)
  | _, _, _, .expression h he => h.balanced.append (IsClosable.balanced he)

theorem Statement.RendersAll.balanced : ∀ {n : Nat} {ss : List Statement} {ls : List Lexeme},
    Statement.RendersAll IsClosable n ss ls → Lexeme.Balanced ls
  | _, _, _, .nil => balanced_nil
  | _, _, _, .cons h hs => h.balanced.append hs.balanced

end

end FlatScript
