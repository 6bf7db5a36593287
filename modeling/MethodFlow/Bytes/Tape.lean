import MethodFlow.Bytes.Basic

/-!
Reading and writing with machine words for positions. A sum of words may wrap round, so an operation
looks at it before it moves.
-/

namespace MethodFlow.Bytes

/-- The sum of two words, unless it wraps round, which shows in a sum that is less than a
summand. -/
def checkedSum (a b : UInt64) : Option UInt64 := if a + b < a then none else some (a + b)

def saturatingDifference (a b : UInt64) : UInt64 := if a < b then 0 else a - b

/-- A row of bytes whose length is a word, and a position that may be any word. -/
structure Tape where
  bytes : Array UInt8
  position : UInt64 := 0
  size_lt : bytes.size < UInt64.size

namespace Tape

def length (m : Tape) : UInt64 := .ofNat m.bytes.size

def remaining (m : Tape) : UInt64 := saturatingDifference m.length m.position

/-- The position behind the next `width` bytes. -/
def stop? (m : Tape) (width : UInt64) : Option UInt64 :=
  match checkedSum m.position width with
  | none => none
  | some stop => if m.length < stop then none else some stop

def seek (position : UInt64) : Edit Tape Unit := fun m =>
  if m.length < position then .error .outOfBounds m else .ok () { m with position }

def advance (step : UInt64) : Edit Tape Unit := fun m =>
  if m.remaining < step then .error .outOfBounds m
  else .ok () { m with position := m.position + step }

def readBytes (count : UInt64) : Edit Tape (List UInt8) := fun m =>
  if m.remaining < count then .error .outOfBounds m
  else
    .ok (m.bytes.extract m.position.toNat (m.position + count).toNat).toList
      { m with position := m.position + count }

def readUnsigned (width : UInt64) : Edit Tape Nat := fun m =>
  match m.stop? width with
  | none => .error .outOfBounds m
  | some stop =>
    .ok (ofBigEndian (m.bytes.extract m.position.toNat stop.toNat).toList)
      { m with position := stop }

def writeUnsigned (width : UInt64) (n : Nat) : Edit Tape Unit := fun m =>
  match m.stop? width with
  | none => .error .outOfBounds m
  | some stop =>
    .ok () {
      bytes := Buffer.overwrite m.bytes m.position.toNat (toBigEndian width.toNat n)
      position := stop
      size_lt := by simpa using m.size_lt }

def writeWord (w : UInt16) : Edit Tape Unit := writeUnsigned 2 w.toNat

end Tape

end MethodFlow.Bytes
