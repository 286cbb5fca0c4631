import FlatScript.Proofs.Batch
import FlatScript.Proofs.Correspondence
import FlatScript.Proofs.Document
import FlatScript.Proofs.Naming
import FlatScript.Proofs.Outline
import FlatScript.Proofs.TokenLine
import FlatScript.Proofs.Truncation

namespace FlatScript

def Machine.behind (m : Machine) (bs : ByteArray) : Machine :=
  { m with output := { m.output with bytes := bs ++ m.output.bytes } }

theorem Output.write_behind (out : Output) (bs : ByteArray) (text : String) :
    ({ out with bytes := bs ++ out.bytes } : Output).write text =
      ((out.write text).1,
        { (out.write text).2 with bytes := bs ++ (out.write text).2.bytes }) := by
  obtain ⟨bytes, room⟩ := out
  cases room with
  | none => simp [write, ByteArray.append_assoc]
  | some room => simp [write, ByteArray.append_assoc]

theorem Machine.behind_empty (text text' : String) :
    ({ output := ((({} : Output).write text).2.write text').2 } : Machine) =
      ({} : Machine).behind (text ++ text').toUTF8 := by
  simp [Output.write, behind]

/-! ### Runs behind an output -/

section

variable {bs : ByteArray} {α : Type} {x : Eval α}

open Eval

/-- The steps do the same behind an output that has been begun. -/
theorem relates_behind_iff :
    Relates (fun m m' => m' = m.behind bs) (fun _ => False) Eq x x ↔
      ∀ m, x.run (m.behind bs) = ((x.run m).1, (x.run m).2.behind bs) := by
  constructor
  · intro h m
    have hm := h m _ rfl
    generalize x.run m = r, x.run (m.behind bs) = r' at hm
    cases hm with
    | ok hv hm => rw [← hv, hm]
    | error hm => rw [hm]
    | left he => exact he.elim
    | right he => exact he.elim
  · rintro h m _ rfl
    rw [h m]
    generalize x.run m = r
    obtain ⟨e | a, m'⟩ := r
    · exact .error rfl
    · exact .ok rfl rfl

theorem Eval.Silent.run_behind (h : x.Silent) (m : Machine) :
    x.run (m.behind bs) = ((x.run m).1, (x.run m).2.behind bs) := by
  have ho : (x.run m).2.output = m.output := congrArg (·.2.output) (h m m.output)
  have hb := h m { m.output with bytes := bs ++ m.output.bytes }
  rw [← ho] at hb
  rw [Machine.behind, ← ho]
  exact hb

theorem Eval.Silent.relates_behind (h : x.Silent) :
    Relates (fun m m' => m' = m.behind bs) (fun _ => False) Eq x x :=
  relates_behind_iff.2 h.run_behind

theorem relates_behind_writeOutput (text : String) :
    Relates (fun m m' => m' = m.behind bs) (fun _ => False) Eq (writeOutput text)
      (writeOutput text) := by
  refine relates_behind_iff.2 fun m => ?_
  have hw := m.output.write_behind bs text
  rw [run_writeOutput, run_writeOutput, Machine.behind, hw]
  rfl

theorem relates_behind_builtin (shell : Shell) (b : Builtin) (vs : List Value) :
    Relates (fun m m' => m' = m.behind bs) (fun _ => False) Eq (b.run shell vs)
      (b.run shell vs) := by
  cases ht : b.written? vs with
  | none => exact (Builtin.silent_run ht).relates_behind
  | some text =>
    rw [Builtin.run_of_written ht]
    exact (relates_behind_writeOutput text).bind fun _ _ _ => relates_pure rfl

end

def Correspondence.behind (shell : Shell) (bs : ByteArray) : Correspondence shell shell where
  machine m m' := m' = m.behind bs
  value := Eq
  exempt _ := False
  runs _ := True
  refl _ := rfl
  type_eq h := h ▸ rfl
  lookup name := (Eval.silent_lookupVariable name).relates_behind
  set name _ _ h := h ▸ (Eval.silent_setVariable name _).relates_behind
  apply op _ _ _ _ hl hr := hl ▸ hr ▸ (Eval.silent_ofExcept _).relates_behind
  builtin _ _ _ h := by
    rw [List.forall₂_eq_eq_eq] at h
    exact h ▸ relates_behind_builtin shell _ _

theorem Program.run_behind (p : Program) (shell : Shell) (r : Resolution) (m : Machine)
    (bs : ByteArray) :
    p.run shell r (m.behind bs) = ((p.run shell r m).1, (p.run shell r m).2.behind bs) :=
  relates_behind_iff.1 (fun _ _ hm => (Correspondence.behind shell bs).relates_run
    (fun _ _ _ _ _ _ _ _ => trivial) (fun _ _ _ _ _ => trivial) hm) m

theorem Resolved.run_behind (p : Resolved) (shell : Shell) (m : Machine) (bs : ByteArray) :
    p.run shell (m.behind bs) = ((p.run shell m).1, (p.run shell m).2.behind bs) := by
  rw [run, Program.run_behind, run]
  generalize p.program.run shell p.resolution m = r
  obtain ⟨e | v, m'⟩ := r
  · rfl
  · rfl

/-! ### Trees -/

/-- The text is the outline of the program. Every mention in it says whether it refers to a
declaration. -/
def Program.ShowsOutline (p : Program) (text : String) : Prop :=
  ∃ mark : NodeId → String,
    (∀ id s, p.Refers id s → mark id = ", resolved") ∧
    (∀ id, (¬ ∃ s, p.Refers id s) → mark id = ", not resolved") ∧
    text.toList =
      "Program\n".toList ++ Indented.textAll 1 (Statement.indentedAll mark p.statements)

def Json.resolved (document : Json) (references : List (NodeId × Symbol)) : Json :=
  .object
    [("program", document),
      ("references", .array (references.map fun r =>
        .object [("node", .nat r.1), ("symbol", .string r.2.name)]))]

/-- The text is, in JSON, the document of the program and a list of all mentions that refer to
declarations, in the order of their numbers and each with the name of what it refers to. -/
def Program.ShowsDocument (p : Program) (text : String) : Prop :=
  ∃ document references, p.IsDocument document ∧
    (references.map Prod.fst).Pairwise (· < ·) ∧
    (∀ id s, (id, s) ∈ references ↔ p.Refers id s) ∧
    (Json.resolved document references).IsText text

namespace Resolved

theorem describes_of_ofString {text : String} {p : Resolved}
    (h : (Resolved.ofString text).1 = .ok p) : p.resolution.Describes p.program := by
  rw [Resolved.ofString] at h
  rcases hp : Program.ofString text with ⟨e | program, warnings⟩
  · rw [hp] at h
    cases h
  · rw [hp] at h
    dsimp only at h
    rcases hr : program.resolve with ⟨e | r, later⟩
    · rw [hr] at h
      cases h
    · rw [hr] at h
      cases h
      have hd := Program.hasDistinctIds_of_ofString (congrArg Prod.fst hp)
      exact Program.describes_of_resolve (congrArg Prod.fst hr) hd

variable {p : Resolved} (h : p.resolution.Describes p.program)

include h

theorem showsOutline_render : p.program.ShowsOutline (p.render .outline) := by
  have hl : ∀ id, p.resolution.isLinked id = true ↔ ∃ s, p.program.Refers id s := fun id => by
    rw [Resolution.isLinked, Option.isSome_iff_exists]
    simp only [h.symbolFor]
  refine ⟨linkStatus (some p.resolution.isLinked), fun id s hr => ?_, fun id hr => ?_,
    p.program.toList_outline _⟩
  · exact if_pos ((hl id).2 ⟨s, hr⟩)
  · exact if_neg fun hi => hr ((hl id).1 hi)

theorem showsDocument_render : p.program.ShowsDocument (p.render .json) := by
  have hp := p.program.isDocument_toJson
  refine ⟨p.program.toJson, p.resolution.references, hp, h.increasing, h.references, ?_⟩
  have hr : p.render .json =
      (Json.resolved p.program.toJson p.resolution.references).pretty ++ "\n" := by
    simp [render, Json.record, Json.resolved, List.mergeSort]
  have hn : (Json.resolved p.program.toJson p.resolution.references).HasNumerals := by
    simp only [Json.resolved, Json.hasNumerals_object_iff, Json.hasNumerals_array_iff,
      List.forall_mem_cons, List.forall_mem_map]
    exact ⟨hp.hasNumerals, fun _ _ => by simp, List.forall_mem_nil _⟩
  rw [hr]
  exact Json.isText_pretty_append hn (by simp [Json.spaces])

end Resolved

/-! ### What the options show -/

namespace CommandLine

namespace Options

variable (o : Options)

def tokensShown (tokens : List Token) : String :=
  if o.dumpTokens then tokenLines tokens else ""

def treeShown : Except Failure Resolved → String
  | .ok p => (o.dumpTree?.map p.render).getD ""
  | .error _ => ""

/-- The text is what is to be shown of the tokens: a line for each of them, and these lines are of
no other tokens; or nothing. -/
def ShowsTokens (tokens : List Token) (text : String) : Prop :=
  if o.dumpTokens then ∀ ts, FlatScript.ShowsTokens ts text ↔ ts = tokens else text = ""

def ShowsTree (resolved : Except Failure Resolved) (text : String) : Prop :=
  match o.dumpTree?, resolved with
  | some .outline, .ok p => p.program.ShowsOutline text
  | some .json, .ok p => p.program.ShowsDocument text
  | _, _ => text = ""

theorem showsTokens_tokensShown (tokens : List Token) :
    o.ShowsTokens tokens (o.tokensShown tokens) := by
  unfold ShowsTokens tokensShown
  split
  · have hs := showsTokens_tokenLines tokens
    exact fun ts => ⟨fun h => h.unique hs, fun h => h ▸ hs⟩
  · rfl

theorem showsTree_treeShown {text : String} {r : Except Failure Resolved}
    (h : (Resolved.ofString text).1 = r) : o.ShowsTree r (o.treeShown r) := by
  cases r with
  | error e =>
    unfold ShowsTree
    split
    · contradiction
    · contradiction
    · rfl
  | ok p =>
    have hd := Resolved.describes_of_ofString h
    unfold ShowsTree treeShown
    cases o.dumpTree? with
    | none => rfl
    | some form =>
      cases form with
      | outline => exact Resolved.showsOutline_render hd
      | json => exact Resolved.showsDocument_render hd

theorem run_of_tokenize (shell : Shell) {text : String} {ts : List Token}
    (h : (tokenize text).1 = .ok ts) :
    (o.run shell text).result = (interpret shell {} text).result ∧
      (o.run shell text).output.bytes =
        (o.tokensShown ts ++ o.treeShown (Resolved.ofString text).1).toUTF8 ++
          (interpret shell {} text).machine.output.bytes := by
  obtain ⟨us, ws, hu, hs⟩ : ∃ us ws, (if o.dumpTokens then tokenize text else (.ok [], [])) =
      (Except.ok us, ws) ∧ o.tokensShown ts = tokenLines us := by
    unfold tokensShown
    split
    · exact ⟨ts, (tokenize text).2, Prod.ext h rfl, rfl⟩
    · exact ⟨[], [], rfl, rfl⟩
  rw [run, interpret, hu, hs]
  generalize Resolved.ofString text = r
  obtain ⟨e | p, later⟩ := r
  · simp [Output.write, treeShown]
  · dsimp only
    rw [Machine.behind_empty, p.run_behind]
    exact ⟨rfl, rfl⟩

theorem run_of_tokenize_error (shell : Shell) {text : String} {e : LexError}
    (h : (tokenize text).1 = .error e) :
    (∃ e', (o.run shell text).result = .error e') ∧ (o.run shell text).output.bytes = .empty := by
  cases hd : o.dumpTokens with
  | true =>
    obtain ⟨ws, ht⟩ : ∃ ws, tokenize text = (.error e, ws) := ⟨_, Prod.ext h rfl⟩
    rw [run, hd, if_pos rfl, ht]
    exact ⟨⟨_, rfl⟩, rfl⟩
  | false =>
    obtain ⟨e', ws, hp⟩ : ∃ e' ws, Program.ofString text = (.error e', ws) := by
      cases hp : (Program.ofString text).1 with
      | ok p => exact absurd hp (not_ofString_of_tokenize_error h)
      | error e' => exact ⟨e', _, Prod.ext hp rfl⟩
    rw [run, hd, if_neg Bool.false_ne_true, Resolved.ofString, hp]
    exact ⟨⟨_, rfl⟩, rfl⟩

end Options

theorem Completion.status_behavior (c : Completion) :
    c.behavior.status = match c.result with | .ok _ => 0 | .error _ => 1 := by
  obtain ⟨e | v, output, log⟩ := c
  · rfl
  · rfl

theorem Completion.output_behavior (c : Completion) : c.behavior.output = c.output.bytes := by
  obtain ⟨e | v, output, log⟩ := c
  · rfl
  · rfl

end CommandLine

open CommandLine

/-- Whatever is to be shown, the status of a run is the same. The run of a text that has tokens ends
in the same value or failure too, and what it shows, first of the tokens and then of the program,
stands in front of what is written without it. The run of a text that has no tokens shows nothing
and fails. -/
theorem run_options (o : Options) (shell : Shell) (text : String) :
    (o.run shell text).behavior.status = (({} : Options).run shell text).behavior.status ∧
      match (tokenize text).1 with
      | .ok ts =>
        (o.run shell text).result = (({} : Options).run shell text).result ∧
          o.ShowsTokens ts (o.tokensShown ts) ∧
          o.ShowsTree (Resolved.ofString text).1 (o.treeShown (Resolved.ofString text).1) ∧
          (o.run shell text).behavior.output =
            (o.tokensShown ts ++ o.treeShown (Resolved.ofString text).1).toUTF8 ++
              (({} : Options).run shell text).behavior.output
      | .error _ =>
        (o.run shell text).behavior.status = 1 ∧ (o.run shell text).behavior.output = .empty := by
  simp only [Completion.status_behavior, Completion.output_behavior]
  cases h : (tokenize text).1 with
  | ok ts =>
    obtain ⟨hr, ho⟩ := o.run_of_tokenize shell h
    obtain ⟨hr', ho'⟩ := ({} : Options).run_of_tokenize shell h
    have hs : ({} : Options).treeShown (Resolved.ofString text).1 = "" := by
      unfold Options.treeShown
      split
      · rfl
      · rfl
    refine ⟨by rw [hr, hr'], hr.trans hr'.symm, o.showsTokens_tokensShown ts,
      o.showsTree_treeShown rfl, ?_⟩
    rw [ho, ho', hs]
    simp [Options.tokensShown]
  | error e =>
    obtain ⟨⟨e₁, hr⟩, ho⟩ := o.run_of_tokenize_error shell h
    obtain ⟨⟨e₂, hr'⟩, -⟩ := ({} : Options).run_of_tokenize_error shell h
    rw [hr, hr']
    exact ⟨rfl, rfl, ho⟩

end FlatScript
