import FlatScript.Proofs.Naming

namespace FlatScript

/-- The answers to calls that are made one after the other, and the state behind the last. -/
def callEach {σ α ρ : Type} (call : σ → α → ρ × σ) : σ → List α → List ρ × σ
  | s, [] => ([], s)
  | s, a :: as =>
    let (reply, s) := call s a
    let (replies, s) := callEach call s as
    (reply :: replies, s)

section

variable {σ τ α ρ : Type} {call : σ → α → ρ × σ}

theorem callEach_append (s : σ) (as bs : List α) :
    callEach call s (as ++ bs) =
      ((callEach call s as).1 ++ (callEach call (callEach call s as).2 bs).1,
        (callEach call (callEach call s as).2 bs).2) := by
  induction as generalizing s with
  | nil => rfl
  | cons a as ih => simp only [List.cons_append, callEach, ih]

theorem callEach_induction {P : σ → Prop} (hstep : ∀ s a, P s → P (call s a).2) {s : σ} (h : P s)
    (as : List α) : P (callEach call s as).2 := by
  induction as generalizing s with
  | nil => exact h
  | cons a as ih => exact ih (hstep s a h)

theorem callEach_alike {call' : τ → α → ρ × τ} {R : σ → τ → Prop}
    (hstep : ∀ s t a, R s t → (call s a).1 = (call' t a).1 ∧ R (call s a).2 (call' t a).2) {s : σ}
    {t : τ} (h : R s t) (as : List α) :
    (callEach call s as).1 = (callEach call' t as).1 ∧
      R (callEach call s as).2 (callEach call' t as).2 := by
  induction as generalizing s t with
  | nil => exact ⟨rfl, h⟩
  | cons a as ih =>
    obtain ⟨ha, hr⟩ := hstep s t a h
    obtain ⟨has, hrs⟩ := ih hr
    exact ⟨congrArg₂ List.cons ha has, hrs⟩

end

namespace SymbolTable

variable {t : SymbolTable}

/-- A call of `enter`: the id that it gives out or its error, and the table behind it. -/
def enterCall (t : SymbolTable) (s : Symbol) : Except ResolveError SymbolId × SymbolTable :=
  match t.enter s with
  | .ok t' => (.ok t.size, t')
  | .error e => (.error e, t)

theorem enterCall_of_mem {s : Symbol} (h : s.name ∈ t.symbols.map Symbol.name) :
    t.enterCall s = (.error (.duplicateSymbol s.name), t) := by
  simp only [enterCall, enter, if_pos (lookup_isSome_iff.2 h)]

theorem enterCall_of_not_mem {s : Symbol} (h : s.name ∉ t.symbols.map Symbol.name) :
    t.enterCall s = (.ok t.size, ⟨t.symbols ++ [s]⟩) := by
  simp only [enterCall, enter, if_neg (mt lookup_isSome_iff.1 h)]

theorem lookup_concat (t : SymbolTable) (s : Symbol) (name : String) :
    lookup ⟨t.symbols ++ [s]⟩ name =
      (t.lookup name).or (if s.name == name then some t.size else none) := by
  simp only [lookup, List.findIdx?_append, List.findIdx?_cons, List.findIdx?_nil, size]
  cases s.name == name with
  | true => simp
  | false => simp

theorem nodup_enterCall (h : (t.symbols.map Symbol.name).Nodup) (s : Symbol) :
    ((t.enterCall s).2.symbols.map Symbol.name).Nodup := by
  by_cases hs : s.name ∈ t.symbols.map Symbol.name
  · rw [enterCall_of_mem hs]
    exact h
  · rw [enterCall_of_not_mem hs]
    simpa [List.nodup_append] using ⟨h, by simpa using hs⟩

theorem symbols_prefix_enterCall (t : SymbolTable) (s : Symbol) :
    t.symbols <+: (t.enterCall s).2.symbols := by
  by_cases hs : s.name ∈ t.symbols.map Symbol.name
  · simp only [enterCall_of_mem hs, List.prefix_rfl]
  · rw [enterCall_of_not_mem hs]
    exact List.prefix_append _ _

theorem symbols_prefix_callEach (t : SymbolTable) (ss : List Symbol) :
    t.symbols <+: (callEach enterCall t ss).2.symbols :=
  callEach_induction (P := fun t' => t.symbols <+: t'.symbols)
    (fun t' s h => h.trans (symbols_prefix_enterCall t' s)) List.prefix_rfl ss

theorem get_callEach_of_get {id : SymbolId} {s : Symbol} (h : t.get? id = some s)
    (ss : List Symbol) : (callEach enterCall t ss).2.get? id = some s := by
  obtain ⟨rest, hr⟩ := symbols_prefix_callEach t ss
  rw [get?, ← hr, List.getElem?_append_left (List.getElem?_eq_some_iff.1 h).1]
  exact h

theorem range_append_replies (t : SymbolTable) (ss : List Symbol) :
    List.range t.size ++ (callEach enterCall t ss).1.filterMap Except.toOption =
      List.range (callEach enterCall t ss).2.size := by
  induction ss generalizing t with
  | nil => simp [callEach]
  | cons s ss ih =>
    simp only [callEach]
    rw [← ih]
    by_cases hs : s.name ∈ t.symbols.map Symbol.name
    · rw [enterCall_of_mem hs]
      rfl
    · have hsize : size ⟨t.symbols ++ [s]⟩ = t.size + 1 := List.length_append
      rw [enterCall_of_not_mem hs, hsize, List.range_succ, List.append_assoc]
      rfl

theorem get_of_reply {ss : List Symbol} {k : Nat} {id : SymbolId}
    (h : (callEach enterCall t ss).1[k]? = some (.ok id)) :
    (callEach enterCall t ss).2.get? id = ss[k]? := by
  induction ss generalizing t k with
  | nil => simp [callEach] at h
  | cons s ss ih =>
    cases k with
    | succ k => exact ih h
    | zero =>
      have h : (t.enterCall s).1 = .ok id := Option.some.inj h
      by_cases hs : s.name ∈ t.symbols.map Symbol.name
      · rw [enterCall_of_mem hs] at h
        exact nomatch h
      · simp only [callEach]
        rw [enterCall_of_not_mem hs] at h ⊢
        obtain rfl : t.size = id := Except.ok.inj h
        exact get_callEach_of_get (List.getElem?_concat_length) ss

theorem mem_names_iff {name : String} :
    name ∈ t.symbols.map Symbol.name ↔ ∃ id s, t.get? id = some s ∧ s.name = name := by
  rw [List.mem_map]
  constructor
  · rintro ⟨s, hs, hn⟩
    obtain ⟨id, hid⟩ := List.mem_iff_getElem?.1 hs
    exact ⟨id, s, hid, hn⟩
  · rintro ⟨id, s, hid, hn⟩
    exact ⟨s, List.mem_of_getElem? hid, hn⟩

theorem enterCall_eq_error_iff {s : Symbol} {e : ResolveError} :
    (t.enterCall s).1 = .error e ↔
      e = .duplicateSymbol s.name ∧ ∃ id s', t.get? id = some s' ∧ s'.name = s.name := by
  rw [← mem_names_iff]
  by_cases hs : s.name ∈ t.symbols.map Symbol.name
  · simp [enterCall_of_mem hs, hs, eq_comm]
  · simp [enterCall_of_not_mem hs, hs]

theorem enterCall_of_error {s : Symbol} {e : ResolveError} (h : (t.enterCall s).1 = .error e) :
    (t.enterCall s).2 = t := by
  obtain ⟨-, hs⟩ := enterCall_eq_error_iff.1 h
  rw [enterCall_of_mem (mem_names_iff.2 hs)]

/-- The answers to calls of `enter` on an empty table, and the table behind them. -/
def replies (ss : List Symbol) : List (Except ResolveError SymbolId) := (callEach enterCall {} ss).1

def after (ss : List Symbol) : SymbolTable := (callEach enterCall {} ss).2

theorem nodup_after (ss : List Symbol) : ((after ss).symbols.map Symbol.name).Nodup :=
  callEach_induction (P := fun t : SymbolTable => (t.symbols.map Symbol.name).Nodup)
    (fun _ s h => nodup_enterCall h s) (s := {}) List.nodup_nil ss

end SymbolTable

/-- A table with an index of the ids of names. -/
structure IndexedTable where
  symbols : Array Symbol := #[]
  byName : Std.HashMap String SymbolId := {}

namespace IndexedTable

def size (t : IndexedTable) : Nat := t.symbols.size

def lookup (t : IndexedTable) (name : String) : Option SymbolId := t.byName[name]?

def get? (t : IndexedTable) (id : SymbolId) : Option Symbol := t.symbols[id]?

def enterCall (t : IndexedTable) (s : Symbol) : Except ResolveError SymbolId × IndexedTable :=
  if t.byName.contains s.name then (.error (.duplicateSymbol s.name), t)
  else
    let id := t.symbols.size
    (.ok id, { symbols := t.symbols.push s, byName := t.byName.insert s.name id })

/-- The symbols are those of the table `u`, and the index finds what is found in `u`. -/
structure Indexes (t : IndexedTable) (u : SymbolTable) : Prop where
  symbols : t.symbols.toList = u.symbols
  lookup : ∀ name, t.lookup name = u.lookup name

variable {t : IndexedTable} {u : SymbolTable}

theorem Indexes.get (h : t.Indexes u) (id : SymbolId) : t.get? id = u.get? id := by
  rw [get?, SymbolTable.get?, ← h.symbols, Array.getElem?_toList]

theorem Indexes.size_eq (h : t.Indexes u) : t.size = u.size := by
  rw [size, SymbolTable.size, ← h.symbols, Array.length_toList]

theorem indexes_enterCall (t : IndexedTable) (u : SymbolTable) (s : Symbol) (h : t.Indexes u) :
    (t.enterCall s).1 = (u.enterCall s).1 ∧ (t.enterCall s).2.Indexes (u.enterCall s).2 := by
  have hcontains : t.byName.contains s.name = (u.lookup s.name).isSome := by
    rw [← h.lookup, lookup, Std.HashMap.contains_eq_isSome_getElem?]
  by_cases hs : s.name ∈ u.symbols.map Symbol.name
  · have hc : t.byName.contains s.name = true :=
      hcontains.trans (SymbolTable.lookup_isSome_iff.2 hs)
    rw [SymbolTable.enterCall_of_mem hs, enterCall, if_pos hc]
    exact ⟨rfl, h⟩
  · have hn : u.lookup s.name = none :=
      Option.not_isSome_iff_eq_none.1 (mt SymbolTable.lookup_isSome_iff.1 hs)
    rw [SymbolTable.enterCall_of_not_mem hs, enterCall, if_neg (by simp [hcontains, hn])]
    refine ⟨congrArg _ h.size_eq, by simp [h.symbols], fun name => ?_⟩
    rw [SymbolTable.lookup_concat, ← h.lookup, lookup, Std.HashMap.getElem?_insert]
    split
    next he =>
      obtain rfl := beq_iff_eq.1 he
      rw [h.lookup, hn]
      exact congrArg some h.size_eq
    next => exact (Option.or_none).symm

def replies (ss : List Symbol) : List (Except ResolveError SymbolId) := (callEach enterCall {} ss).1

def after (ss : List Symbol) : IndexedTable := (callEach enterCall {} ss).2

theorem indexes_after (ss : List Symbol) :
    replies ss = SymbolTable.replies ss ∧ (after ss).Indexes (SymbolTable.after ss) :=
  callEach_alike indexes_enterCall ⟨rfl, fun _ => Std.HashMap.getElem?_empty⟩ ss

end IndexedTable

namespace SymbolTable

/-- Behind any calls of `enter` on an empty table, the names of the symbols are different; names and
ids are looked up and got in one-to-one correspondence; the ids given out are the numbers below the
size, in order, each for the symbol of its call, and stand for the same symbols behind further
calls; one more call fails if and only if there is a symbol of the name, and then changes nothing.
A table with an index answers everything as this one. -/
theorem bijective_after_calls (ss : List Symbol) :
    ((after ss).symbols.map Symbol.name).Nodup ∧
    (∀ name id, (after ss).lookup name = some id ↔
      ∃ s, (after ss).get? id = some s ∧ s.name = name) ∧
    (replies ss).filterMap Except.toOption = List.range (after ss).size ∧
    (∀ (k : Nat) id, (replies ss)[k]? = some (.ok id) → (after ss).get? id = ss[k]?) ∧
    (∀ id s ss', (after ss).get? id = some s → (after (ss ++ ss')).get? id = some s) ∧
    (∀ s e, ((after ss).enterCall s).1 = .error e ↔
      e = .duplicateSymbol s.name ∧ ∃ id s', (after ss).get? id = some s' ∧ s'.name = s.name) ∧
    (∀ s e, ((after ss).enterCall s).1 = .error e → ((after ss).enterCall s).2 = after ss) ∧
    IndexedTable.replies ss = replies ss ∧
    (IndexedTable.after ss).size = (after ss).size ∧
    (∀ name, (IndexedTable.after ss).lookup name = (after ss).lookup name) ∧
    ∀ id, (IndexedTable.after ss).get? id = (after ss).get? id := by
  obtain ⟨hreplies, hindex⟩ := IndexedTable.indexes_after ss
  refine ⟨nodup_after ss, fun name id => lookup_eq_some_iff (nodup_after ss),
    range_append_replies {} ss, fun k id h => get_of_reply h, fun id s ss' h => ?_,
    fun s e => enterCall_eq_error_iff, fun s e h => enterCall_of_error h, hreplies,
    hindex.size_eq, hindex.lookup, hindex.get⟩
  rw [after, callEach_append]
  exact get_callEach_of_get h ss'

end SymbolTable

end FlatScript
