import FlatScript.Proofs.Moves
import FlatScript.Proofs.Reading

namespace FlatScript

inductive Demand
  | program
  | expression
deriving DecidableEq, Repr

inductive Tree
  | program (p : Program)
  | expression (e : Expr)

def Tree.ids : Tree → List NodeId
  | .program p => (Statement.mentionsAll p.statements).map Mention.id
  | .expression e => e.mentions.map Mention.id

/-- How a parser has answered a demand, and the number that it would have given out next before. -/
structure Reply where
  nextId : NodeId
  result : Except ParseError Tree

variable {σ : Type} [TokenSource σ]

def Demand.parser : Demand → Parser σ Tree
  | .program => .program <$> Parser.program
  | .expression => .expression <$> Parser.expression Parser.maxNesting

/-- The replies to demands that are made one after the other; an error does not end them. -/
def ParserState.replies (s : ParserState σ) : List Demand → List Reply
  | [] => []
  | d :: ds =>
    let (result, s') := d.parser.run s
    ⟨s.nextId, result⟩ :: s'.replies ds

namespace Reply

/-- If there is a tree, its mentions are numbered in order, without gaps. -/
def Numbered (r : Reply) : Prop :=
  ∀ tree, r.result = .ok tree → tree.ids = List.range' r.nextId tree.ids.length

/-- If there are two trees, the numbers in the first one are less than those in the second one. -/
def Below (r r' : Reply) : Prop :=
  ∀ tree tree', r.result = .ok tree → r'.result = .ok tree' →
    ∀ i ∈ tree.ids, ∀ j ∈ tree'.ids, i < j

end Reply

namespace Parser

theorem stepwise_demand (d : Demand) : (d.parser : Parser σ Tree).Stepwise := by
  cases d with
  | program => exact stepwise_program.map _
  | expression => exact (stepwise_expression maxNesting).map _

theorem reaches_demand {d : Demand} {s s' : ParserState σ} {tree : Tree}
    (h : d.parser.run s = (.ok tree, s')) : ∃ ls, s.Reaches ls tree.ids s' := by
  cases d with
  | program =>
    obtain ⟨p, hp, rfl⟩ := run_map_eq_ok.1 h
    obtain ⟨ls, _, hls, -⟩ := reads_program hp
    exact ⟨ls, hls⟩
  | expression =>
    obtain ⟨e, he, rfl⟩ := run_map_eq_ok.1 h
    obtain ⟨ls, hls, -⟩ := reads_expression maxNesting s e s' he
    exact ⟨ls, hls⟩

end Parser

namespace ParserState

open FlatScript.Parser

theorem nextId_le_of_mem_replies {ds : List Demand} {s : ParserState σ} {r : Reply}
    (h : r ∈ s.replies ds) : s.nextId ≤ r.nextId := by
  induction ds generalizing s with
  | nil => simp [replies] at h
  | cons d ds ih =>
    rw [replies, List.mem_cons] at h
    rcases h with rfl | h
    · exact Nat.le_refl _
    · exact Nat.le_trans (nextId_le_of_moves (stepwise_demand d s)) (ih h)

theorem numbered_reply (d : Demand) (s : ParserState σ) :
    (⟨s.nextId, (d.parser.run s).1⟩ : Reply).Numbered := by
  intro tree h
  obtain ⟨ls, hls⟩ := reaches_demand (Prod.ext h rfl)
  exact hls.ids_eq

theorem lt_nextId_of_mem_ids {d : Demand} {s : ParserState σ} {tree : Tree}
    (h : (d.parser.run s).1 = .ok tree) {i : NodeId} (hi : i ∈ tree.ids) :
    i < (d.parser.run s).2.nextId := by
  obtain ⟨ls, hls⟩ := reaches_demand (Prod.ext h rfl)
  rw [hls.ids_eq, List.mem_range'_1] at hi
  rw [hls.nextId_eq]
  exact hi.2

theorem numbered_of_mem_replies {ds : List Demand} {s : ParserState σ} {r : Reply}
    (h : r ∈ s.replies ds) : r.Numbered := by
  induction ds generalizing s with
  | nil => simp [replies] at h
  | cons d ds ih =>
    rw [replies, List.mem_cons] at h
    rcases h with rfl | h
    · exact numbered_reply d s
    · exact ih h

theorem below_replies (s : ParserState σ) (ds : List Demand) :
    (s.replies ds).Pairwise Reply.Below := by
  induction ds generalizing s with
  | nil => exact .nil
  | cons d ds ih =>
    refine .cons (fun r hr tree tree' ht ht' i hi j hj => ?_) (ih _)
    have hlt := lt_nextId_of_mem_ids ht hi
    have hle := nextId_le_of_mem_replies hr
    rw [numbered_of_mem_replies hr tree' ht', List.mem_range'_1] at hj
    exact Nat.lt_of_lt_of_le hlt (Nat.le_trans hle hj.1)

end ParserState

/-- However a parser is used, it numbers the mentions of each tree in the order of reading, from its
counter on; the numbers of different trees differ, and a program that a new parser reads has the
numbers from 0 on. -/
theorem mentions_numbered_in_replies (s : ParserState σ) (ds : List Demand) :
    (∀ r ∈ s.replies ds, r.Numbered) ∧ (s.replies ds).Pairwise Reply.Below ∧
      ∀ (tokens : Lookahead σ) (p : Program), (Parser.program.run { tokens }).1 = .ok p →
        (Tree.program p).ids = List.range (Tree.program p).ids.length := by
  refine ⟨fun r hr => s.numbered_of_mem_replies hr, s.below_replies ds, fun tokens p hp => ?_⟩
  have hd : ((Demand.program.parser : Parser σ Tree).run { tokens }).1 = .ok (.program p) := by
    have hr := Parser.run_map_eq_ok (f := Tree.program).2 ⟨p, Prod.ext hp rfl, rfl⟩
    exact congrArg Prod.fst hr
  rw [List.range_eq_range']
  exact ParserState.numbered_reply .program { tokens } _ hd

end FlatScript
