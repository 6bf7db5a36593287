import MethodFlow.Bytes.Basic

/-!
Tables of a code attribute. A table is a count of two bytes and that many entries, each a fixed
number of two-byte words. Tables are read and written word by word, so a failure leaves the position
behind the last whole word.
-/

namespace MethodFlow

open Bytes

class TableEntry (α : Type) where
  wordCount : Nat
  words : α → List UInt16
  length_words : ∀ a, (words a).length = wordCount
  /-- Reads one entry, and refuses one that means nothing. -/
  read : Edit Cursor α

structure CodeTable (α : Type) where
  entries : List α
deriving DecidableEq

namespace CodeTable

variable {α : Type} [TableEntry α]

/-- Most entries that a count of two bytes can announce. -/
def limit : Nat := 65535

def readEntries : Nat → Edit Cursor (List α)
  | 0 => pure []
  | n + 1 => do
    let entry ← TableEntry.read
    let rest ← readEntries n
    return entry :: rest

def read : Edit Cursor (CodeTable α) := do
  let count ← Cursor.readWord
  return ⟨← readEntries count.toNat⟩

/-- The words of a table: its count, then its entries. -/
def words (t : CodeTable α) : List UInt16 :=
  UInt16.ofNat t.entries.length :: t.entries.flatMap TableEntry.words

def byteLength (t : CodeTable α) : Nat :=
  2 + t.entries.length * (2 * TableEntry.wordCount α)

def write (t : CodeTable α) : Edit Buffer Unit := do
  Edit.guard (t.entries.length ≤ limit) (.malformed (.tooManyEntries t.entries.length))
  t.words.forM Buffer.writeWord

def toBytes (t : CodeTable α) : Except Fault (Array UInt8) :=
  match t.write (Buffer.zeros t.byteLength) with
  | .ok _ b => .ok b.bytes
  | .error e _ => .error e

end CodeTable

end MethodFlow
