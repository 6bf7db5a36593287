import MethodFlow.CodeTable.Basic

/-!
Local variables: over which code a slot holds a named value.
-/

namespace MethodFlow

open Bytes

/-- Slot `slot` holds the named value over `length` bytes of code from `start` on. Name and type are
indices of the constant pool. -/
structure LocalVariable where
  start : UInt16
  length : UInt16
  name : UInt16
  type : UInt16
  slot : UInt16
deriving DecidableEq

namespace LocalVariable

def words (e : LocalVariable) : List UInt16 := [e.start, e.length, e.name, e.type, e.slot]

def read : Edit Cursor LocalVariable := do
  let start ← Cursor.readWord
  let length ← Cursor.readWord
  let name ← Cursor.readWord
  let type ← Cursor.readWord
  let slot ← Cursor.readWord
  return { start, length, name, type, slot }

instance : TableEntry LocalVariable := ⟨5, words, fun _ => rfl, read⟩

def covers (e : LocalVariable) (pc : UInt16) : Bool :=
  e.start ≤ pc && pc.toNat < e.start.toNat + e.length.toNat

end LocalVariable

def CodeTable.liveAt (t : CodeTable LocalVariable) (slot pc : UInt16) : List LocalVariable :=
  t.entries.filter fun e => e.slot = slot && e.covers pc

end MethodFlow
