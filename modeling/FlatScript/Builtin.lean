namespace FlatScript

inductive Builtin
  | print
  | printf
  | exec
deriving DecidableEq, Repr

namespace Builtin

def name : Builtin → String
  | .print => "print"
  | .printf => "printf"
  | .exec => "exec"

def ofName? (name : String) : Option Builtin :=
  if name = "print" then some .print
  else if name = "printf" then some .printf
  else if name = "exec" then some .exec
  else none

theorem ofName_name (b : Builtin) : ofName? b.name = some b := by cases b <;> rfl

theorem name_of_ofName {s : String} {b : Builtin} (h : ofName? s = some b) : b.name = s := by
  unfold ofName? at h
  split at h
  next hs => obtain rfl := Option.some.inj h; exact hs.symm
  split at h
  next hs => obtain rfl := Option.some.inj h; exact hs.symm
  split at h
  next hs => obtain rfl := Option.some.inj h; exact hs.symm
  next => simp at h

end Builtin

def isBuiltin (name : String) : Bool := (Builtin.ofName? name).isSome

end FlatScript
