import FlatScript.Value

namespace FlatScript

/-- The variables in the order in which they were set for the first time. -/
structure Environment where
  entries : List (String × Value) := []
  nodup : (entries.map Prod.fst).Nodup := by simp
deriving DecidableEq

namespace Environment

def setEntry (name : String) (value : Value) : List (String × Value) → List (String × Value)
  | [] => [(name, value)]
  | entry :: entries =>
    if entry.1 = name then (name, value) :: entries else entry :: setEntry name value entries

theorem setEntry_keys (name : String) (value : Value) (entries : List (String × Value)) :
    (setEntry name value entries).map Prod.fst =
      if name ∈ entries.map Prod.fst then entries.map Prod.fst
      else entries.map Prod.fst ++ [name] := by
  induction entries with
  | nil => simp [setEntry]
  | cons entry entries ih =>
    by_cases h : entry.1 = name
    · simp [setEntry, h]
    · have h' : name ≠ entry.1 := fun he => h he.symm
      simp only [setEntry, if_neg h, List.map_cons, ih, List.mem_cons, h', false_or]
      split <;> simp

def set (env : Environment) (name : String) (value : Value) : Environment where
  entries := setEntry name value env.entries
  nodup := by
    rw [setEntry_keys]
    split
    · exact env.nodup
    next h =>
      refine List.nodup_append.2 ⟨env.nodup, by simp, ?_⟩
      intro a ha b hb hab
      rw [List.mem_singleton.1 hb] at hab
      exact h (hab ▸ ha)

def get? (env : Environment) (name : String) : Option Value :=
  (env.entries.find? (·.1 == name)).map Prod.snd

/-- A variable that has not been set is nil. -/
def get (env : Environment) (name : String) : Value := (env.get? name).getD .nil

def isSet (env : Environment) (name : String) : Bool := (env.get? name).isSome

def size (env : Environment) : Nat := env.entries.length

theorem find_setEntry (name : String) (value : Value) (entries : List (String × Value)) :
    (setEntry name value entries).find? (·.1 == name) = some (name, value) := by
  induction entries with
  | nil => simp [setEntry]
  | cons entry entries ih =>
    by_cases h : entry.1 = name
    · simp [setEntry, h]
    · simp [setEntry, h, ih]

theorem find_setEntry_ne {name other : String} (hne : other ≠ name) (value : Value)
    (entries : List (String × Value)) :
    (setEntry name value entries).find? (·.1 == other) = entries.find? (·.1 == other) := by
  have hne' : name ≠ other := fun h => hne h.symm
  induction entries with
  | nil => simp [setEntry, hne']
  | cons entry entries ih =>
    by_cases h : entry.1 = name
    · simp [setEntry, h, hne']
    · simp only [setEntry, if_neg h, List.find?_cons, ih]

theorem get_set (env : Environment) (name : String) (value : Value) :
    (env.set name value).get name = value := by
  simp [get, get?, set, find_setEntry]

theorem get_set_ne (env : Environment) {name other : String} (hne : other ≠ name) (value : Value) :
    (env.set name value).get other = env.get other := by
  simp [get, get?, set, find_setEntry_ne hne]

theorem isSet_set (env : Environment) (name other : String) (value : Value) :
    (env.set name value).isSet other = (other == name || env.isSet other) := by
  by_cases h : other = name
  · simp [isSet, get?, set, h, find_setEntry]
  · simp [isSet, get?, set, find_setEntry_ne h, h]

theorem isSet_iff (env : Environment) (name : String) :
    env.isSet name = true ↔ name ∈ env.entries.map Prod.fst := by
  simp [isSet, get?]

end Environment

end FlatScript
