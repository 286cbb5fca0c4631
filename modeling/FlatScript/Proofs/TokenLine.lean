import FlatScript.CommandLine
import FlatScript.Proofs.Indentation
import FlatScript.Proofs.JsonWriting

namespace FlatScript

open Json

theorem Token.Kind.name_injective : Function.Injective Token.Kind.name := by
  intro k k' h
  cases k <;> cases k' <;> first | rfl | exact absurd h (by decide)

namespace Token

/-- The line is a document in JSON of the token's kind, place and text. -/
structure IsLine (t : Token) (line : String) : Prop where
  newline_not_mem : '\n' ∉ line.toList
  isText : IsText (.object
    [("kind", .string t.kind.name),
      ("location",
        .object [("column", .nat t.location.column), ("line", .nat t.location.line)]),
      ("text", .string t.text)]) line

theorem IsLine.unique {t t' : Token} {line : String} (h : t.IsLine line) (h' : t'.IsLine line) :
    t = t' := by
  obtain ⟨kind, text, ⟨l, c⟩⟩ := t
  obtain ⟨kind', text', ⟨l', c'⟩⟩ := t'
  have he := h.isText.unique h'.isText
  simp only [object.injEq, List.cons.injEq, Prod.mk.injEq, string.injEq, nat_injective.eq_iff,
    true_and, and_true] at he
  obtain ⟨hk, ⟨rfl, rfl⟩, rfl⟩ := he
  rw [Kind.name_injective hk]

theorem toJson_eq (t : Token) :
    t.toJson = .object
      [("kind", .string t.kind.name),
        ("location",
          .object [("column", .nat t.location.column), ("line", .nat t.location.line)]),
        ("text", .string t.text)] := by
  simp [toJson, Json.record, List.mergeSort]

theorem isLine_compact (t : Token) : t.IsLine t.toJson.compact := by
  have hn : ∀ n, '\n' ∉ Nat.toDigits 10 n := fun n hm =>
    absurd (isDigits_toDigits n _ hm) (by decide)
  rw [toJson_eq]
  refine ⟨?_, isText_compact ?_⟩
  · simp [compact, compactMembers, Json.nat, newline_not_mem_quote, hn]
  · simp

end Token

/-- The text is made of one line for each token, in their order. -/
def ShowsTokens (ts : List Token) (text : String) : Prop :=
  ∃ lines : List String, List.Forall₂ Token.IsLine ts lines ∧
    text = String.join (lines.map (· ++ "\n"))

theorem showsTokens_tokenLines (ts : List Token) : ShowsTokens ts (CommandLine.tokenLines ts) := by
  refine ⟨ts.map fun t => t.toJson.compact, ?_, by rw [CommandLine.tokenLines, List.map_map]; rfl⟩
  induction ts with
  | nil => exact .nil
  | cons t ts ih => exact .cons t.isLine_compact ih

theorem toList_join_cons (line : String) (lines : List String) :
    (String.join ((line :: lines).map (· ++ "\n"))).toList =
      line.toList ++ '\n' :: (String.join (lines.map (· ++ "\n"))).toList := by
  simp

theorem ShowsTokens.unique {ts ts' : List Token} {text : String} (h : ShowsTokens ts text)
    (h' : ShowsTokens ts' text) : ts = ts' := by
  obtain ⟨lines, hl, rfl⟩ := h
  obtain ⟨lines', hl', he⟩ := h'
  rw [← String.toList_inj] at he
  induction hl generalizing ts' lines' with
  | nil =>
    cases hl' with
    | nil => rfl
    | cons =>
      rw [toList_join_cons] at he
      simp at he
  | cons ht _ ih =>
    cases hl' with
    | nil =>
      rw [toList_join_cons] at he
      simp at he
    | cons ht' hl' =>
      rw [toList_join_cons, toList_join_cons] at he
      obtain ⟨hline, hr⟩ := Indented.cancel_of_not_mem ht.newline_not_mem ht'.newline_not_mem he
      obtain rfl := String.toList_inj.1 hline
      rw [ht.unique ht', ih _ hl' hr]

end FlatScript
