import MethodFlow.CodeTable.Basic

/-!
Exception handlers as the code attribute lists them.
-/

namespace MethodFlow

open Bytes

/-- The handler at `handler` guards the code from `start` up to but not including `stop`. The class
it catches is an index of the constant pool, or zero for every class. -/
structure ProtectedRange where
  start : UInt16
  stop : UInt16
  handler : UInt16
  caught : UInt16
deriving DecidableEq

namespace ProtectedRange

def words (e : ProtectedRange) : List UInt16 := [e.start, e.stop, e.handler, e.caught]

/-- A range without code is refused. -/
def read : Edit Cursor ProtectedRange := do
  let start ← Cursor.readWord
  let stop ← Cursor.readWord
  let handler ← Cursor.readWord
  let caught ← Cursor.readWord
  Edit.guard (start < stop) (.malformed (.emptyRange start stop))
  return { start, stop, handler, caught }

instance : TableEntry ProtectedRange := ⟨4, words, fun _ => rfl, read⟩

def catchesAll (e : ProtectedRange) : Bool := e.caught = 0

def covers (e : ProtectedRange) (pc : UInt32) : Bool :=
  e.start.toNat ≤ pc.toNat && pc.toNat < e.stop.toNat

end ProtectedRange

end MethodFlow
