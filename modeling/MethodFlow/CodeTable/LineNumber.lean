import MethodFlow.CodeTable.Basic

/-!
Line numbers: which source line an instruction comes from.
-/

namespace MethodFlow

open Bytes

/-- The code from `start` on comes from `line`. -/
structure LineNumber where
  start : UInt16
  line : UInt16
deriving DecidableEq

namespace LineNumber

def words (e : LineNumber) : List UInt16 := [e.start, e.line]

def read : Edit Cursor LineNumber := do
  let start ← Cursor.readWord
  let line ← Cursor.readWord
  return { start, line }

instance : TableEntry LineNumber := ⟨2, words, fun _ => rfl, read⟩

/-- The later of two starts; the second entry where they are the same. -/
def later : Option LineNumber → LineNumber → Option LineNumber
  | none, e => some e
  | some best, e => if best.start ≤ e.start then some e else some best

end LineNumber

/-- The line of the instruction at `pc`: of the entries that start at or before it, the one that
starts last. -/
def CodeTable.lineAt? (t : CodeTable LineNumber) (pc : UInt16) : Option UInt16 :=
  ((t.entries.filter (·.start ≤ pc)).foldl LineNumber.later none).map (·.line)

end MethodFlow
