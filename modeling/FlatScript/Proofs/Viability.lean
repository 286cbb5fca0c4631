import FlatScript.Proofs.Braces
import FlatScript.Proofs.Steering

namespace FlatScript.Parser

variable {σ : Type} [TokenSource σ] {α : Type} {s s' : ParserState σ} {ls rs : List Lexeme}
  {id : NodeId} {F : Lexeme → Prop} {a : α}

/-! ### Expressions -/

theorem isProper_closing : ∀ w ∈ [Lexeme.separator ")"], w.IsProper :=
  List.forall_mem_singleton.2 (Lexeme.isProper_separator (by simp))

theorem ends_closing (min : Nat) : Ends min (.separator ")") :=
  ends_separator (by decide) (by decide) min

theorem isIdentifier_scratch : IsIdentifier "x" :=
  ⟨by decide, by decide, by decide, by decide, by decide⟩

theorem isProper_scratch : (Lexeme.identifier "x").IsProper := isIdentifier_scratch

section Expressions

variable {expression : Parser σ Expr}
  (ha : ∀ s, Agrees s expression expression) (he : ∀ s ls, Steers s ls expression (Ends 0))

include ha he

theorem steers_group (hls : ls = .separator "(" :: rs) (F : Lexeme → Prop) :
    Steers s ls (group expression) F := by
  refine steers_separator_bind (by simp [hls]) fun s₁ ls₁ _ => ?_
  exact .bind [.separator ")"] (ha s₁) (he s₁ ls₁) isProper_closing
    (fun e id => completes_closing ")" _ e id F) (fun _ _ => ends_closing 0)
    fun e s₂ ls₂ _ => steers_closing isProper_closing _ e s₂ ls₂ F

omit ha he in
theorem completes_arguments (expression : Parser σ Expr) (id : NodeId) (F : Lexeme → Prop) :
    (arguments expression).Completes [.separator "(", .separator ")"] id F := by
  refine completes_separator_bind ⟨[], id, fun l rs _ => ?_⟩
  exact (takes_skip_true ")" (l :: rs) id).bind (takes_pure _ _ _)

omit ha he in
theorem isProper_arguments : ∀ w ∈ [Lexeme.separator "(", .separator ")"], w.IsProper :=
  List.forall_mem_cons.2 ⟨Lexeme.isProper_separator (by simp), isProper_closing⟩

theorem steers_arguments (s : ParserState σ) (ls : List Lexeme) (F : Lexeme → Prop) :
    Steers s ls (arguments expression) F := by
  refine steers_separator_bind (fun _ => ?_) fun s₁ ls₁ _ => ?_
  · exact .of_completes _ isProper_arguments (completes_arguments expression s.nextId F)
  refine .bind_of (agrees_skip ")" s₁) (fun hs hh => ?_) fun found s₂ _ ls₂ _ _ _ => ?_
  · obtain rfl := eq_nil_of_hangs_skip hs hh
    refine .of_completes [.separator ")"] isProper_closing ⟨[], s₁.nextId, fun l rs _ => ?_⟩
    exact (takes_skip_true ")" (l :: rs) s₁.nextId).bind (takes_pure _ _ _)
  cases found with
  | true => exact steers_pure []
  | false =>
    have hpick := ignoresPlace_separator ","
    have hcomma : ∀ l, l = .separator ")" → ∀ t : Token, t.lexeme = l →
        (if t.isSeparator "," then some () else none) = none := by
      rintro _ rfl t ht
      rw [isSeparator_eq_false (by simp [ht, Lexeme.separator])]
      rfl
    have hmany := steers_many hpick (fun _ => ha) (fun _ => he) hcomma
      (by rintro _ _ rfl; exact ends_closing 0)
    refine .bind [.separator ")"] (ha s₂) (he s₂ ls₂) isProper_closing (fun first id => ?_)
      (fun _ _ => ends_closing 0) fun first s₃ ls₃ _ => ?_
    · exact (completes_many _ hcomma id).bind
        (fun rest id => completes_closing ")" _ (first :: rest) id F) fun _ _ => rfl
    · exact .bind [.separator ")"] (agrees_many hpick (fun _ => ha) s₃) (hmany s₃ ls₃)
        isProper_closing (fun rest id => completes_closing ")" _ (first :: rest) id F)
        (fun _ _ => rfl) fun rest s₄ ls₄ _ => steers_closing isProper_closing _ _ s₄ ls₄ F

theorem steers_referenceTail (name : String) (after : Token) (hls : ls = after.lexeme :: rs)
    (F : Lexeme → Prop) : Steers s ls (referenceTail expression name after) F := by
  unfold referenceTail
  split
  · refine steers_separator_bind (by simp [hls]) fun s₁ ls₁ _ => ?_
    refine steers_identifier_bind (fun _ => ?_) fun function s₂ ls₂ _ => ?_
    · refine .of_completes (.identifier "x" :: [.separator "(", .separator ")"])
        (List.forall_mem_cons.2 ⟨isProper_scratch, isProper_arguments⟩) ?_
      exact completes_identifier_bind "x" ((completes_arguments expression _ F).bind_pure _)
    · exact .bind_pure (agrees_arguments ha s₂) (steers_arguments ha he s₂ ls₂ F) _
  · refine steers_fresh_bind fun id s₁ ls₁ => ?_
    split
    · exact .bind_pure (agrees_arguments ha s₁) (steers_arguments ha he s₁ ls₁ F) _
    · exact steers_pure _

theorem steers_referenceByName {name : String} (hls : ls = .identifier name :: rs) :
    Steers s ls (referenceByName expression) (Ends Operator.maxPrecedence) := by
  refine steers_look_bind looks_next (by simp [hls]) fun t s₁ ls₁ _ _ _ => ⟨fun t' h => ?_, ?_⟩
  · rw [text_eq_of_lexeme h]
  · refine steers_look_bind looks_peek (fun _ => ?_) fun u s₂ ls₂ hls₂ _ _ => ⟨fun u' h => ?_, ?_⟩
    · refine .of_completes [] (by simp) ⟨.variable s₁.nextId t.text, s₁.nextId + 1, ?_⟩
      refine fun l us hl => takes_peek_bind fun u hu => ?_
      rw [referenceTail, isSeparator_eq_false (hu ▸ hl.2.1), isSeparator_eq_false (hu ▸ hl.1),
        if_neg Bool.false_ne_true]
      exact (takes_fresh _ _).bind (takes_pure _ _ _)
    · simp only [referenceTail, isSeparator_eq_of_lexeme h]
    · exact steers_referenceTail ha he t.text u rfl _

theorem steers_reference {name : String} (hls : ls = .identifier name :: rs) :
    Steers s ls (reference expression) (Ends Operator.maxPrecedence) := by
  subst hls
  intro hs hh
  have hname : ∀ {t : Token}, t.lexeme = .identifier name → t.kind = .identifier :=
    fun h => congrArg Lexeme.kind h
  obtain ⟨t, ht, hl⟩ := hs.begins 0 (Nat.zero_lt_succ _)
  -- The parser looks behind the name before it takes the name; the other way round is easier here.
  have hsame := sameFrom_referenceByName expression ht (hname hl)
  rw [Hangs, hsame.fst_eq] at hh
  refine (steers_referenceByName ha he rfl hs hh).congr fun s' us hs' => ?_
  obtain ⟨t', ht', hl'⟩ := hs'.answer 0 (Nat.zero_lt_succ _)
  exact (sameFrom_referenceByName expression ht' (hname hl')).symm

theorem steers_operand (s : ParserState σ) (ls : List Lexeme) :
    Steers s ls (operand expression) (Ends Operator.maxPrecedence) := by
  rw [operand_eq]
  refine steers_look_bind looks_peek (fun _ => ?_) fun t s₁ rs hls hr hh => ?_
  · rw [← operand_eq]
    have hnull : Lexeme.Writes ⟨.nullLiteral, "null"⟩ .null := .null
    exact .of_completes [⟨.nullLiteral, "null"⟩] (List.forall_mem_singleton.2 hnull.isProper)
      ⟨.null, s.nextId, fun l us _ => takes_operand_literal hnull _ _⟩
  by_cases hk : t.kind = .identifier
  · refine ⟨fun t' h => ?_, ?_⟩
    · rw [operandOf_identifier _ hk, operandOf_identifier _ ((kind_eq_iff_of_lexeme h _).2 hk)]
    · have hl : t.lexeme = .identifier t.text := by rw [Token.lexeme, hk]; rfl
      rw [operandOf_identifier _ hk, hl]
      exact steers_reference ha he rfl
  by_cases hs : t.lexeme = .separator "("
  · refine ⟨fun t' h => ?_, ?_⟩
    · rw [operandOf_group _ hs, operandOf_group _ (h.trans hs)]
    · rw [operandOf_group _ hs, hs]
      exact steers_group ha he rfl _
  rcases literal_of_lexeme t with hl | ⟨e, hl⟩ | ⟨kind, hl⟩
  · rw [operandOf_other _ hk hs (hl t rfl)] at hh
    exact absurd hh (not_hangs_complaint (.unexpected .expression) t)
  · obtain ⟨s₂, hn, -⟩ := looks_next.exists_run (looks_peek.answer_of_run (peek_of_peek hr)).1
    rw [operandOf_literal _ (hl t rfl), Hangs, run_bind, hn] at hh
    exact absurd hh (not_hangs_of_run rfl)
  · obtain ⟨e, he⟩ := hh
    rw [refuses_operandOf expression hl t s s₁ rfl hr] at he
    exact absurd (Except.error.inj he) (Complaint.about_ne_lex _ t e)

theorem steers_chain (min : Nat) (s : ParserState σ) (ls : List Lexeme) :
    Steers s ls (chain expression min) (Ends min) := by
  induction min using chain.induct generalizing s ls with
  | case1 min ih =>
    have hround : ∀ (op : { op : Operator // min < op.precedence }) s ls, Steers s ls
        (do return (op.val, ← chain expression op.val.precedence)) (Ends op.val.precedence) :=
      fun op s ls => .bind_pure (agrees_chain ha _ s) (ih op s ls) _
    have hagrees : ∀ (op : { op : Operator // min < op.precedence }) s, Agrees s
        (do return (op.val, ← chain expression op.val.precedence) : Parser σ _)
        (do return (op.val, ← chain expression op.val.precedence) : Parser σ _) :=
      fun op s => (agrees_chain ha _ s).bind fun _ s₁ _ => agrees_pure s₁ _
    have hnone : ∀ l, Ends min l → ∀ t : Token, t.lexeme = l → tighter? min t = none := by
      rintro _ hl t rfl
      exact tighter_eq_none hl
    have hpick := ignoresPlace_tighter min
    have hmany := steers_many hpick hagrees hround hnone
      fun op l hl => hl.mono (Nat.le_of_lt op.property)
    rw [chain]
    exact .bind [] (agrees_operand ha s) (steers_operand ha he s ls) (by simp)
      (fun first id => (completes_many _ hnone id).bind_pure _) (fun _ hl => hl.maxPrecedence)
      fun first s₁ ls₁ _ => .bind_pure (agrees_many hpick hagrees s₁) (hmany s₁ ls₁) _

end Expressions

theorem steers_expression (n : Nat) (s : ParserState σ) (ls : List Lexeme) :
    Steers s ls (expression n) (Ends 0) := by
  induction n generalizing s ls with
  | zero => exact steers_tooDeep
  | succ n ih => exact steers_chain (agrees_expression n) ih 0 s ls

/-! ### Statements -/

section Statements

variable {expression : Parser σ Expr} {body : Parser σ (List Statement)} {n : Nat}
  (ha : ∀ s, Agrees s expression expression) (he : ∀ s ls, Steers s ls expression (Ends 0))

theorem isProper_semicolon : ∀ w ∈ [Lexeme.separator ";"], w.IsProper :=
  List.forall_mem_singleton.2 (Lexeme.isProper_separator (by simp))

theorem completes_ending (a : α) (id : NodeId) (F : Lexeme → Prop) :
    (skip? ";" >>= fun _ => pure a : Parser σ α).Completes [.separator ";"] id F :=
  ⟨a, id, fun l rs _ => (takes_skip_true ";" (l :: rs) id).bind (takes_pure a _ _)⟩

theorem steers_ending (a : α) (s : ParserState σ) (ls : List Lexeme) (F : Lexeme → Prop) :
    Steers s ls (skip? ";" >>= fun _ => pure a : Parser σ α) F := by
  refine .bind_of (agrees_skip ";" s) (fun hs hh => ?_) fun _ s₁ _ ls₂ _ _ _ => steers_pure a
  obtain rfl := eq_nil_of_hangs_skip hs hh
  exact .of_completes _ isProper_semicolon (completes_ending a s.nextId F)

theorem steers_importStatement {l : Lexeme} (hls : ls = l :: rs) (F : Lexeme → Prop) :
    Steers s ls (importStatement : Parser σ Statement) F := by
  rw [importStatement_eq]
  refine steers_look_bind looks_next (by simp [hls]) fun _ s₁ ls₁ _ _ _ => ⟨fun _ _ => rfl, ?_⟩
  refine steers_look_bind looks_next (fun _ => ?_) fun t s₂ ls₂ _ _ hh => ?_
  · have hp : ∀ w ∈ [Lexeme.string importExtension, .separator ";"], w.IsProper :=
      List.forall_mem_cons.2 ⟨by simp [Lexeme.IsProper, Lexeme.string, importExtension],
        isProper_semicolon⟩
    refine .of_completes _ hp ⟨.importFile importExtension, s₁.nextId, fun l us _ => ?_⟩
    refine takes_next_bind (by simp [Lexeme.string]) fun t ht => ?_
    obtain ⟨hk, hx⟩ : t.kind = .stringLiteral ∧ t.text = importExtension := by
      simpa [Token.lexeme, Lexeme.string] using ht
    rw [importOf, if_pos hk, hx, if_pos (List.isSuffixOf_iff_suffix.2 List.suffix_rfl)]
    exact (takes_skip_true ";" (l :: us) _).bind (takes_pure _ _ _)
  · by_cases hk : t.kind = .stringLiteral
    · by_cases hx : importExtension.toList.isSuffixOf t.text.toList = true
      · refine ⟨fun t' h => ?_, ?_⟩
        · rw [importOf, importOf, if_pos hk, if_pos ((kind_eq_iff_of_lexeme h _).2 hk),
            text_eq_of_lexeme h]
          simp only [if_pos hx]
        · rw [importOf, if_pos hk, if_pos hx]
          exact steers_ending _ s₂ ls₂ F
      · rw [importOf, if_pos hk, if_neg hx] at hh
        exact absurd hh (not_hangs_complaint .importPath t)
    · rw [importOf, if_neg hk] at hh
      exact absurd hh (not_hangs_complaint (.unexpected .importPath) t)

theorem completes_declaredType (id : NodeId) :
    (declaredType : Parser σ String).Completes [] id (· ≠ .separator "::") :=
  ⟨_, id, fun _ us hl => takes_declaredType .default hl us id⟩

theorem steers_declaredType (s : ParserState σ) (ls : List Lexeme) :
    Steers s ls (declaredType : Parser σ String) (· ≠ .separator "::") := by
  refine .bind_of (agrees_skip "::" s) (fun hs hh => ?_) fun typed s₁ _ ls₂ _ _ _ => ?_
  · obtain rfl := eq_nil_of_hangs_skip hs hh
    exact .of_completes [] (by simp) (completes_declaredType s.nextId)
  · cases typed with
    | true =>
      refine steers_look_bind looks_next (fun _ => ?_) fun t s₂ ls₃ _ _ hh => ?_
      · exact .of_completes [.identifier "x"] (List.forall_mem_singleton.2 isProper_scratch)
          ⟨"x", s₁.nextId, fun l us _ => takes_identifier _ _ _ _⟩
      · split at hh
        · exact absurd hh (not_hangs_of_run rfl)
        · exact absurd hh (not_hangs_complaint (.unexpected .typeName) t)
    | false => exact steers_pure _

theorem ends_semicolon : Ends 0 (.separator ";") := ends_separator (by decide) (by decide) 0

theorem semicolon_ne_colons : Lexeme.separator ";" ≠ .separator "::" := by decide

theorem not_isOperator_of_ends {l : Lexeme} (h : Ends 0 l) (t : Token) (ht : t.lexeme = l) :
    (if t.isOperator "=" then some () else none) = none := by
  have hs : ¬ t.isOperator "=" = true := by
    intro ho
    have ho : t.lexeme = .operator .assign := isOperator_iff.1 ho
    exact absurd (h.2.2 .assign (ht.symm.trans ho)) (by decide)
  rw [if_neg hs]

theorem completes_initialValue (expression : Parser σ Expr) (id : NodeId) :
    (initialValue expression).Completes [] id (Ends 0) :=
  ⟨none, id, fun _ _ hl =>
    (takes_accept_none (not_isOperator_of_ends hl)).bind (takes_pure none _ _)⟩

include ha he

theorem steers_initialValue (s : ParserState σ) (ls : List Lexeme) :
    Steers s ls (initialValue expression) (Ends 0) := by
  refine .bind_of (agrees_accept (ignoresPlace_operator "=") s) (fun hs hh => ?_)
    fun assigned s₁ _ ls₂ _ _ _ => ?_
  · obtain rfl := eq_nil_of_hangs_accept hs hh
    exact .of_completes [] (by simp) (completes_initialValue expression s.nextId)
  · split
    · exact .bind_pure (ha s₁) (he s₁ ls₂) some
    · exact steers_pure none

theorem steers_variableStatement {l : Lexeme} (hls : ls = l :: rs) (F : Lexeme → Prop) :
    Steers s ls (variableStatement expression) F := by
  rw [variableStatement_eq]
  have hi : ∀ name typeName id, (initialValue expression >>= fun init => skip? ";" >>= fun _ =>
      pure (.variable name typeName init) : Parser σ Statement).Completes [.separator ";"] id F :=
    fun name typeName id => (completes_initialValue expression id).bind
      (fun init id => completes_ending _ id F) fun _ _ => ends_semicolon
  refine steers_look_bind looks_next (by simp [hls]) fun _ s₁ ls₁ _ _ _ => ⟨fun _ _ => rfl, ?_⟩
  refine steers_identifier_bind (fun _ => ?_) fun name s₂ ls₂ _ => ?_
  · refine .of_completes (.identifier "x" :: [.separator ";"])
      (List.forall_mem_cons.2 ⟨isProper_scratch, isProper_semicolon⟩) ?_
    refine completes_identifier_bind "x" ?_
    exact (completes_declaredType _).bind (hi "x") fun _ _ => semicolon_ne_colons
  refine .bind [.separator ";"] (agrees_declaredType s₂) (steers_declaredType s₂ ls₂)
    isProper_semicolon (hi name) (fun _ _ => semicolon_ne_colons) fun typeName s₃ ls₃ _ => ?_
  exact .bind [.separator ";"] (agrees_initialValue ha s₃) (steers_initialValue ha he s₃ ls₃)
    isProper_semicolon (fun init id => completes_ending _ id F) (fun _ _ => ends_semicolon)
    fun init s₄ ls₄ _ => steers_ending _ s₄ ls₄ F

theorem steers_expressionStatement (s : ParserState σ) (ls : List Lexeme) (F : Lexeme → Prop) :
    Steers s ls (expressionStatement expression) F :=
  .bind [.separator ";"] (ha s) (he s ls) isProper_semicolon
    (fun _ id => completes_ending _ id F) (fun _ _ => ends_semicolon)
    fun _ s₁ ls₁ _ => steers_ending _ s₁ ls₁ F

omit ha he

theorem isProper_brace : ∀ w ∈ [Lexeme.separator "\x7d"], w.IsProper :=
  List.forall_mem_singleton.2 (Lexeme.isProper_separator (by simp))

/-- A body can be left empty unless it would be one level too deep. -/
theorem steers_functionStatement (hab : ∀ s, Agrees s body body)
    (hb : ∀ s ls, Lexeme.OpensFewer (n - 1) ls → Steers s ls body Stops)
    (hc : 0 < n → ∀ id, body.Completes [] id Stops)
    (hn : Lexeme.OpensFewer n (.keyword "fn" :: ls)) (F : Lexeme → Prop) :
    Steers s (.keyword "fn" :: ls) (functionStatement body) F := by
  have hbody : 0 < n → ∀ name id, (separator "\x7b" .bodyOpening >>= fun _ => body >>= fun ss =>
      separator "\x7d" .bodyClosing >>= fun _ => pure (.function name ss) :
        Parser σ Statement).Completes [.separator "\x7b", .separator "\x7d"] id F := by
    intro hpos name id
    exact completes_separator_bind ((hc hpos id).bind
      (fun ss id => completes_closing _ _ (Statement.function name ss) id F) fun _ _ => .inr rfl)
  have hp : ∀ w ∈ [Lexeme.separator "\x7b", .separator "\x7d"], w.IsProper :=
    List.forall_mem_cons.2 ⟨Lexeme.isProper_separator (by simp), isProper_brace⟩
  have hp₁ : ∀ w ∈ Lexeme.separator ")" :: [.separator "\x7b", .separator "\x7d"], w.IsProper :=
    List.forall_mem_cons.2 ⟨Lexeme.isProper_separator (by simp), hp⟩
  have hp₂ : ∀ w ∈ Lexeme.separator "(" :: .separator ")" :: [.separator "\x7b", .separator "\x7d"],
      w.IsProper := List.forall_mem_cons.2 ⟨Lexeme.isProper_separator (by simp), hp₁⟩
  have hp₃ := List.forall_mem_cons.2 ⟨isProper_scratch, hp₂⟩
  refine steers_look_bind looks_next nofun fun t s₁ ls₁ hls _ _ => ⟨fun _ _ => rfl, ?_⟩
  obtain rfl : ls = ls₁ := (List.cons.inj hls).2
  -- In front of the body no braces are open, so that there may be a body.
  refine steers_identifier_bind (fun h => ?_) fun name s₂ ls₂ h => ?_
  · subst h
    have hpos := hn.pos_of_balanced (Lexeme.balanced_singleton (by decide) (by decide))
    exact .of_completes _ hp₃ (completes_identifier_bind "x" (completes_separator_bind
      (completes_separator_bind (hbody hpos "x" _))))
  subst h
  refine steers_separator_bind (fun h => ?_) fun s₃ ls₃ h => ?_
  · subst h
    have hpos := hn.pos_of_balanced (by simp [Lexeme.Balanced, Lexeme.keyword, Lexeme.identifier,
      Lexeme.separator])
    exact .of_completes _ hp₂ (completes_separator_bind (completes_separator_bind
      (hbody hpos name _)))
  subst h
  refine steers_separator_bind (fun h => ?_) fun s₄ ls₄ h => ?_
  · subst h
    have hpos := hn.pos_of_balanced (by simp [Lexeme.Balanced, Lexeme.keyword, Lexeme.identifier,
      Lexeme.separator])
    exact .of_completes _ hp₁ (completes_separator_bind (hbody hpos name _))
  subst h
  have hbal : Lexeme.Balanced
      [.keyword "fn", .identifier name, .separator "(", .separator ")"] := by
    simp [Lexeme.Balanced, Lexeme.keyword, Lexeme.identifier, Lexeme.separator]
  refine steers_separator_bind (fun h => ?_) fun s₅ ls₅ h => ?_
  · subst h
    exact .of_completes _ hp (hbody (hn.pos_of_balanced hbal) name _)
  subst h
  exact .bind [.separator "\x7d"] (hab s₅) (hb s₅ ls₅ (hbal.opensFewer hn).of_opening)
    isProper_brace (fun ss id => completes_closing _ _ (Statement.function name ss) id F)
    (fun _ _ => .inr rfl) fun ss s₆ ls₆ _ => steers_closing isProper_brace _ _ s₆ ls₆ F

include ha he

theorem steers_statement (hab : ∀ s, Agrees s body body)
    (hb : ∀ s ls, Lexeme.OpensFewer (n - 1) ls → Steers s ls body Stops)
    (hc : 0 < n → ∀ id, body.Completes [] id Stops) {l : Lexeme} (hls : ls = l :: rs)
    (hn : Lexeme.OpensFewer n ls) (F : Lexeme → Prop) :
    Steers s ls (statement expression body) F := by
  rw [statement_eq]
  refine steers_look_bind looks_peek (by simp [hls]) fun t s₁ ls₁ hls₁ _ hh => ?_
  by_cases hi : t.lexeme = .keyword "import"
  · refine ⟨fun t' h => ?_, ?_⟩
    · rw [statementOf_import _ _ hi, statementOf_import _ _ (h.trans hi)]
    · rw [statementOf_import _ _ hi]
      exact steers_importStatement rfl F
  by_cases hf : t.lexeme = .keyword "fn"
  · refine ⟨fun t' h => ?_, ?_⟩
    · rw [statementOf_function _ _ hf, statementOf_function _ _ (h.trans hf)]
    · rw [hls₁, hf] at hn
      rw [statementOf_function _ _ hf, hf]
      exact steers_functionStatement hab hb hc hn F
  by_cases hv : t.lexeme = .keyword "let"
  · refine ⟨fun t' h => ?_, ?_⟩
    · rw [statementOf_variable _ _ hv, statementOf_variable _ _ (h.trans hv)]
    · rw [statementOf_variable _ _ hv]
      exact steers_variableStatement ha he rfl F
  by_cases hk : t.kind = .keyword
  · rw [statementOf_reserved _ _ hk hi hf hv] at hh
    exact absurd hh (not_hangs_complaint .reserved t)
  by_cases hx : beginsExpression t = true
  · refine ⟨fun t' h => ?_, ?_⟩
    · rw [statementOf_expression _ _ hk hx, statementOf_expression _ _
        (mt (kind_eq_iff_of_lexeme h _).1 hk) ((beginsExpression_of_lexeme h).trans hx)]
    · rw [statementOf_expression _ _ hk hx]
      exact steers_expressionStatement ha he s₁ _ F
  · rw [statementOf_other _ _ hk hx] at hh
    exact absurd hh (not_hangs_complaint (.unexpected .statement) t)

end Statements

theorem shows_ofTokens {us : List Token} (hu : ∀ u ∈ us, u.lexeme.IsProper) (place : Location) :
    (ParserState.ofTokens (us ++ [.eof place]) (.eof place)).Shows
      (us.map Token.lexeme ++ [⟨.eof, ""⟩]) := by
  refine ⟨us ++ [.eof place], by simp [Token.lexeme, Token.eof], ?_⟩
  change Lookahead.Yields ⟨Ending.eof place, us ++ [.eof place]⟩ _
  induction us with
  | nil => exact (Lookahead.yields_pending_cons _).2 (.inl ⟨rfl, rfl⟩)
  | cons u us ih =>
    rw [List.forall_mem_cons] at hu
    exact (Lookahead.yields_pending_cons _).2
      (.inr ⟨hu.1.isEof_token u.location, _, rfl, ih hu.2⟩)

theorem exists_shows (hp : ∀ l ∈ ls, l.IsProper) (id : NodeId) :
    ∃ s : ParserState Ending, s.Shows (ls ++ [⟨.eof, ""⟩]) ∧ s.nextId = id := by
  have hl : (ls.map (·.token .start)).map Token.lexeme = ls := by
    simp [Token.lexeme, Lexeme.token, Function.comp_def]
  have hs := shows_ofTokens (fun u hu => hp _ (hl ▸ List.mem_map_of_mem hu)) .start
  rw [hl] at hs
  exact ⟨⟨_, id⟩, hs, rfl⟩

theorem balanced_of_takesBefore {n : Nat} {body : Parser Ending (List Statement)}
    (hrb : ReadsBody body n) {a : Statement} {id' : NodeId}
    (h : (statement (expression n) body).TakesBefore ls id a rs id')
    (hp : ∀ l ∈ ls ++ rs, l.IsProper) : Lexeme.Balanced ls := by
  obtain ⟨s, hs, hid⟩ := exists_shows hp id
  rw [List.append_assoc] at hs
  obtain ⟨s', hr, ⟨us, hus, hy⟩, -⟩ := h _ (by simp) (List.prefix_append rs _) s hs hid
  obtain ⟨ls', ⟨⟨ts, rfl, hts⟩, -, -⟩, hw⟩ := reads_statement (reads_expression n) hrb _ _ _ hr
  obtain ⟨vs, hvs, hy'⟩ := hs
  have hd : ts ++ us = vs := Except.ok.inj
    ((Lookahead.drain_of_yields (hts us hy)).symm.trans (Lookahead.drain_of_yields hy'))
  rw [← hd, List.map_append, hus, List.append_left_inj] at hvs
  rw [hvs] at hw
  exact (hw fun l hl => hp l (List.mem_append_left rs hl)).balanced

section Bodies

variable {n : Nat} {body : Parser Ending (List Statement)} {s : ParserState Ending}

theorem completes_statementList (n : Nat) (body : Parser σ (List Statement)) (id : NodeId) :
    (statementList n body).Completes [] id Stops := by
  refine ⟨[], id, fun l us hl => takes_manyUntil_nil ?_⟩
  rintro t rfl
  rcases hl with hl | hl
  · have he : t.isEof = true := by simpa [Token.isEof, Token.lexeme] using hl
    rw [he, Bool.true_or]
  · rw [isSeparator_iff.2 hl, Bool.or_true]

theorem statementList_eq (n : Nat) (body : Parser σ (List Statement)) :
    statementList n body = (do
      let t ← peek
      if t.isEof || t.isSeparator "\x7d" then return []
      let a ← statement (expression n) body
      let as ← statementList n body
      return a :: as) := manyUntil_eq _ _ _

theorem agrees_statementList (hab : ∀ s, Agrees s body body) (s : ParserState Ending) :
    Agrees s (statementList n body) (statementList n body) :=
  agrees_manyUntil ignoresPlace_stop (agrees_statement (agrees_expression n) hab) s

theorem steers_statementList (hab : ∀ s, Agrees s body body) (hrb : ReadsBody body n)
    (hb : ∀ s ls, Lexeme.OpensFewer (n - 1) ls → Steers s ls body Stops)
    (hc : 0 < n → ∀ id, body.Completes [] id Stops) (s : ParserState Ending) (ls : List Lexeme)
    (hn : Lexeme.OpensFewer n ls) : Steers s ls (statementList n body) Stops := by
  -- Each statement takes a token, so the induction is on what is left to read.
  induction hk : s.tokens.size using Nat.strongRecOn generalizing s ls with
  | _ k ih =>
    rw [statementList_eq]
    refine steers_look_bind looks_peek (fun _ => ?_) fun t s₁ ls₁ hls hr hh => ⟨fun t' h => ?_, ?_⟩
    · rw [← statementList_eq]
      exact .of_completes [] (by simp) (completes_statementList n body _)
    · rw [isEof_eq_of_lexeme h, isSeparator_eq_of_lexeme h]
    · split
      · exact steers_pure []
      subst hls
      have hst : Steers s₁ (t.lexeme :: ls₁) (statement (expression n) body) Stops :=
        steers_statement (agrees_expression n) (steers_expression n) hab hb hc rfl hn Stops
      intro hs₁ hh₁
      have hp : ∀ l ∈ t.lexeme :: ls₁, l.IsProper := hs₁.proper
      refine Steers.bind_of (agrees_statement (agrees_expression n) hab s₁) (fun hs₁ hh₁ => ?_)
        (fun a s₂ us vs hus hr' ht => ?_) hs₁ hh₁
      · exact (hst hs₁ hh₁).bind_left (by simp)
          (fun a id => (completes_statementList n body id).bind_pure _) fun _ hl => hl
      · have hlt : s₂.tokens.size < k := by
          have h := statement_consumes (expression_consumes n) body s₁ a (by rw [hr'])
          rw [hr'] at h
          exact hk ▸ Nat.lt_of_lt_of_le h (size_of_run hr)
        have hus : t.lexeme :: ls₁ = us ++ vs := hus
        rw [hus] at hp hn
        -- The statement has closed what it opened, so behind it no more bodies are open.
        have hvs := (balanced_of_takesBefore hrb ht hp).opensFewer hn
        exact .bind_pure (agrees_statementList hab s₂) (ih _ hlt s₂ vs hvs rfl) _

end Bodies

theorem steers_statements (n : Nat) (s : ParserState Ending) (ls : List Lexeme)
    (hn : Lexeme.OpensFewer n ls) : Steers s ls (statements n) Stops := by
  induction n generalizing s ls with
  | zero =>
    refine steers_statementList agrees_tooDeep (fun s ss s' h => ?_) (fun _ _ _ => steers_tooDeep)
      (fun h => absurd h (Nat.lt_irrefl 0)) s ls hn
    exact absurd h run_tooDeep_ne_ok
  | succ n ih =>
    have hrb : ReadsBody (statements n : Parser Ending _) (n + 1) := fun s ss s' h => by
      obtain ⟨ls, hls, hl⟩ := reads_statements n s ss s' h
      exact ⟨ls, hls, fun hp => ⟨n, rfl, hl hp⟩⟩
    refine steers_statementList (agrees_statements n) hrb ih (fun _ id => ?_) s ls hn
    exact ⟨_, _, fun l us hl => takes_statements .nil hl us id⟩

/-- A parser that runs into a fault has taken lexemes of a program, unless as many bodies are open
as may be open at once, or the next level would be one too many. -/
theorem steers_program (s : ParserState Ending) (ls : List Lexeme)
    (hn : Lexeme.OpensFewer maxNesting ls) : Steers s ls program (·.kind = .eof) := by
  have hend : ∀ (ss : List Statement) id, (peek >>= fun t =>
      if t.isEof then pure ⟨ss⟩ else unexpected .statement t :
        Parser Ending Program).Completes [] id (·.kind = .eof) := by
    refine fun ss id => ⟨⟨ss⟩, id, fun l us hl => takes_peek_bind fun t ht => ?_⟩
    have he : t.isEof = true := by
      rw [← ht] at hl
      simpa [Token.isEof, Token.lexeme] using hl
    rw [if_pos he]
    exact takes_pure _ _ _
  refine .bind [] (agrees_statements maxNesting s) (steers_statements maxNesting s ls hn) (by simp)
    hend (fun _ hl => .inl hl) fun ss s₁ ls₁ _ => ?_
  refine steers_look_bind looks_peek (fun _ => ?_) fun t s₂ ls₂ _ _ hh => ?_
  · exact .of_completes [] (by simp) (hend ss _)
  · split at hh
    · exact absurd hh (not_hangs_of_run rfl)
    · exact absurd hh (not_hangs_complaint (.unexpected .statement) t)

end FlatScript.Parser
