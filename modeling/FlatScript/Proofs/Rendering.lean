import FlatScript.Parser.Grammar
import FlatScript.Proofs.Lexeme
import FlatScript.Proofs.Numbering

namespace FlatScript

open FlatScript.Parser (importExtension defaultTypeName)

inductive Lexeme.Writes : Lexeme → Expr → Prop
  | string {s : String} (h : '"' ∉ s.toList) : Writes (.string s) (.string s)
  | integer {n : Nat} (h : n < Nat.pow 2 63) : Writes ⟨.integerLiteral, n.repr⟩ (.integer (.ofNat n))
  | decimal {text : String} {d : Decimal} (h : IsDecimal text.toList)
      (hd : Decimal.read? text.toList = some d) :
      Writes ⟨.decimalLiteral, text⟩ (.decimal (Single.ofDecimal d))
  | boolean (b : Bool) : Writes ⟨.booleanLiteral, toString b⟩ (.boolean b)
  | null : Writes ⟨.nullLiteral, "null"⟩ .null

mutual

/-- `Expr.Renders n min e ls`: the lexemes `ls` write the expression `e`, with at most `n` levels
open at once in it, and where it has no parentheses around it, it is not made by an operator of a
lower precedence than `min`. -/
inductive Expr.Renders : Nat → Nat → Expr → List Lexeme → Prop
  | literal {n min : Nat} {e : Expr} {l : Lexeme} (h : l.Writes e) : Expr.Renders n min e [l]
  | name {n min : Nat} {id : NodeId} {name : String} (h : IsIdentifier name) :
      Expr.Renders n min (.variable id name) [.identifier name]
  | call {n min : Nat} {id : NodeId} {name : String} {args : List Expr} {ls : List Lexeme}
      (h : IsIdentifier name) (ha : Expr.RendersArguments n args ls) :
      Expr.Renders n min (.call id name args)
        (.identifier name :: .separator "(" :: ls ++ [.separator ")"])
  | externalCall {n min : Nat} {module function : String} {args : List Expr} {ls : List Lexeme}
      (hm : IsIdentifier module) (hf : IsIdentifier function)
      (ha : Expr.RendersArguments n args ls) :
      Expr.Renders n min (.externalCall module function args)
        (.identifier module :: .separator "::" :: .identifier function :: .separator "(" :: ls ++
          [.separator ")"])
  | binary {n min : Nat} {op : Operator} {left right : Expr} {ls rs : List Lexeme}
      (h : min ≤ op.precedence) (hl : Expr.Renders n op.precedence left ls)
      (hr : Expr.Renders n (op.precedence + 1) right rs) :
      Expr.Renders n min (.binary op left right) (ls ++ .operator op :: rs)
  | group {n min : Nat} {e : Expr} {ls : List Lexeme} (h : Expr.Renders n 0 e ls) :
      Expr.Renders (n + 1) min e (.separator "(" :: ls ++ [.separator ")"])

inductive Expr.RendersArguments : Nat → List Expr → List Lexeme → Prop
  | nil {n : Nat} : Expr.RendersArguments n [] []
  | single {n : Nat} {e : Expr} {ls : List Lexeme} (h : Expr.Renders n 0 e ls) :
      Expr.RendersArguments (n + 1) [e] ls
  | cons {n : Nat} {e e' : Expr} {es : List Expr} {ls ls' : List Lexeme}
      (h : Expr.Renders n 0 e ls) (hs : Expr.RendersArguments (n + 1) (e' :: es) ls') :
      Expr.RendersArguments (n + 1) (e :: e' :: es) (ls ++ .separator "," :: ls')

end

/-- The lexemes of a declared type; the default type need not be written. -/
inductive RendersType : String → List Lexeme → Prop
  | default : RendersType defaultTypeName []
  | written {typeName : String} (h : IsIdentifier typeName) :
      RendersType typeName [.separator "::", .identifier typeName]

/-- The lexemes of an initial value, which is one level deeper than its declaration. -/
inductive RendersInit : Nat → Option Expr → List Lexeme → Prop
  | none {n : Nat} : RendersInit n none []
  | some {n : Nat} {e : Expr} {ls : List Lexeme} (h : e.Renders n 0 ls) :
      RendersInit (n + 1) (some e) (.operator .assign :: ls)

def IsClosed (ending : List Lexeme) : Prop := ending = [.separator ";"]

def IsClosable (ending : List Lexeme) : Prop := ending = [] ∨ ending = [.separator ";"]

mutual

/-- The lexemes of a statement with at most `n` levels open at once in it; `Ending` tells in what
imports, variable declarations and expressions end. -/
inductive Statement.Renders (Ending : List Lexeme → Prop) :
    Nat → Statement → List Lexeme → Prop
  | importFile {n : Nat} {path : String} {es : List Lexeme} (h : '"' ∉ path.toList)
      (hx : importExtension.toList <:+ path.toList) (he : Ending es) :
      Statement.Renders Ending n (.importFile path) (.keyword "import" :: .string path :: es)
  | function {n : Nat} {name : String} {body : List Statement} {ls : List Lexeme}
      (h : IsIdentifier name) (hb : Statement.RendersAll Ending n body ls) :
      Statement.Renders Ending (n + 1) (.function name body)
        (.keyword "fn" :: .identifier name :: .separator "(" :: .separator ")" ::
          .separator "\x7b" :: ls ++ [.separator "\x7d"])
  | declaration {n : Nat} {name typeName : String} {init : Option Expr} {ts is es : List Lexeme}
      (h : IsIdentifier name) (ht : RendersType typeName ts) (hi : RendersInit n init is)
      (he : Ending es) :
      Statement.Renders Ending n (.variable name typeName init)
        (.keyword "let" :: .identifier name :: ts ++ is ++ es)
  | expression {n : Nat} {e : Expr} {ls es : List Lexeme} (h : e.Renders n 0 ls)
      (he : Ending es) : Statement.Renders Ending (n + 1) (.expression e) (ls ++ es)

inductive Statement.RendersAll (Ending : List Lexeme → Prop) :
    Nat → List Statement → List Lexeme → Prop
  | nil {n : Nat} : Statement.RendersAll Ending n [] []
  | cons {n : Nat} {s : Statement} {ss : List Statement} {ls ls' : List Lexeme}
      (h : Statement.Renders Ending n s ls) (hs : Statement.RendersAll Ending n ss ls') :
      Statement.RendersAll Ending n (s :: ss) (ls ++ ls')

end

/-- The lexemes of a program, in which at most `n` levels are open at once. -/
def Program.Renders (p : Program) (Ending : List Lexeme → Prop) (n : Nat) (ls : List Lexeme) :
    Prop :=
  Statement.RendersAll Ending n p.statements ls

namespace Expr

variable {n min : Nat} {e : Expr} {ls : List Lexeme}

theorem Renders.of_precedence {m : Nat} (h : e.Renders n min ls)
    (hm : ∀ op : Operator, min ≤ op.precedence → m ≤ op.precedence) : e.Renders n m ls := by
  cases h with
  | literal h => exact .literal h
  | name h => exact .name h
  | call h ha => exact .call h ha
  | externalCall hm hf ha => exact .externalCall hm hf ha
  | binary h hl hr => exact .binary (hm _ h) hl hr
  | group h => exact .group h

theorem Renders.mono {m : Nat} (h : e.Renders n min ls) (hm : m ≤ min) : e.Renders n m ls :=
  h.of_precedence fun _ hp => Nat.le_trans hm hp

theorem Renders.of_maxPrecedence_lt (h : e.Renders n min ls) (hm : Operator.maxPrecedence < min)
    (m : Nat) : e.Renders n m ls := by
  refine h.of_precedence fun op hp => ?_
  have := op.precedence_le
  omega

theorem Renders.of_zero (h : e.Renders n 0 ls) : e.Renders n 1 ls :=
  h.of_precedence fun op _ => op.precedence_pos

/-- An operand with operators behind it, each of which takes all that is in front of it as its left
side. -/
def chained (first : Expr) (rest : List (Operator × Expr)) : Expr :=
  rest.foldl (fun left (op, right) => .binary op left right) first

/-- The operators behind an operand, and their right sides. They bind no tighter than `bound`, and
none binds tighter than the one in front of it. -/
inductive RendersChain (n min : Nat) : Nat → List (Operator × Expr) → List Lexeme → Prop
  | nil {bound : Nat} : RendersChain n min bound [] []
  | cons {bound : Nat} {op : Operator} {right : Expr} {rest : List (Operator × Expr)}
      {rs ls : List Lexeme} (hm : min ≤ op.precedence) (hb : op.precedence ≤ bound)
      (hr : right.Renders n (op.precedence + 1) rs)
      (hs : RendersChain n min op.precedence rest ls) :
      RendersChain n min bound ((op, right) :: rest) (.operator op :: rs ++ ls)

theorem renders_chained {bound : Nat} {rest : List (Operator × Expr)} {rs : List Lexeme}
    (h : RendersChain n min bound rest rs) {first : Expr} {fs : List Lexeme}
    (hmin : first.Renders n min fs) (hbound : first.Renders n bound fs) :
    (first.chained rest).Renders n min (fs ++ rs) := by
  induction h generalizing first fs with
  | nil => simpa [chained] using hmin
  | @cons bound op right rest rs ls hm hb hr _ ih =>
    have hl := hbound.mono hb
    have h := ih (.binary hm hl hr) (.binary (Nat.le_refl _) hl hr)
    simpa [chained] using h

theorem RendersChain.append {bound p : Nat} {op : Operator} {right : Expr}
    {rest : List (Operator × Expr)} {ls rs : List Lexeme}
    (h : RendersChain n p bound rest ls) (hp : op.precedence = p) (hm : min ≤ op.precedence)
    (hb : op.precedence ≤ bound) (hr : right.Renders n (op.precedence + 1) rs) :
    RendersChain n min bound (rest ++ [(op, right)]) (ls ++ .operator op :: rs) := by
  induction h with
  | nil => simpa using RendersChain.cons hm hb hr .nil
  | cons hm' hb' hr' _ ih =>
    have hs := ih (hp ▸ hm')
    have hm'' := Nat.le_trans hm (hp ▸ hm')
    simpa using RendersChain.cons hm'' hb' hr' hs

theorem Renders.exists_chain : ∀ {n min : Nat} {e : Expr} {ls : List Lexeme}, e.Renders n min ls →
    ∃ (first : Expr) (rest : List (Operator × Expr)) (fs rs : List Lexeme),
      e = first.chained rest ∧ ls = fs ++ rs ∧ first.Renders n (Operator.maxPrecedence + 1) fs ∧
      RendersChain n min Operator.maxPrecedence rest rs
  | _, _, _, _, .literal h => ⟨_, [], _, [], rfl, by simp, .literal h, .nil⟩
  | _, _, _, _, .name h => ⟨_, [], _, [], rfl, by simp, .name h, .nil⟩
  | _, _, _, _, .call h ha => ⟨_, [], _, [], rfl, by simp, .call h ha, .nil⟩
  | _, _, _, _, .externalCall hm hf ha => ⟨_, [], _, [], rfl, by simp, .externalCall hm hf ha, .nil⟩
  | _, _, _, _, .group h => ⟨_, [], _, [], rfl, by simp, .group h, .nil⟩
  | _, _, _, _, @Renders.binary _ _ op _ right _ _ h hl hr => by
    obtain ⟨first, rest, fs, rs, rfl, rfl, hf, hs⟩ := hl.exists_chain
    refine ⟨first, rest ++ [(op, right)], fs, _, ?_, ?_, hf,
      hs.append rfl h op.precedence_le hr⟩
    · simp [chained]
    · simp

theorem mentions_chained (first : Expr) (rest : List (Operator × Expr)) :
    (first.chained rest).mentions = first.mentions ++ rest.flatMap (·.2.mentions) := by
  induction rest generalizing first with
  | nil => simp [Expr.chained]
  | cons r rest ih =>
    have h := ih (.binary r.1 first r.2)
    simpa [Expr.chained, Expr.mentions] using h

def numberedRest (k : NodeId) : List (Operator × Expr) → List (Operator × Expr)
  | [] => []
  | (op, e) :: rest => (op, e.numbered k) :: numberedRest (k + e.mentions.length) rest

theorem numbered_chained (first : Expr) (rest : List (Operator × Expr)) (k : NodeId) :
    (first.chained rest).numbered k =
      (first.numbered k).chained (numberedRest (k + first.mentions.length) rest) := by
  induction rest generalizing first with
  | nil => rfl
  | cons r rest ih =>
    obtain ⟨op, right⟩ := r
    have h := ih (.binary op first right)
    rw [Expr.numbered, Expr.mentions, List.length_append, ← Nat.add_assoc] at h
    exact h

end Expr

end FlatScript
