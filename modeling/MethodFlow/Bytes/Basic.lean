import MethodFlow.Edit

/-!
Rows of bytes. Numbers are big-endian: the most significant byte comes first, and a signed number is
written as its two's complement. A cursor reads, and its position never passes the end. A buffer
writes into a row of fixed length, at a position that may lie anywhere. A read or a write that would
pass the end fails and changes nothing.
-/

namespace MethodFlow.Bytes

def ofBigEndian (bytes : List UInt8) : Nat :=
  bytes.foldl (fun n b => n * 256 + b.toNat) 0

/-- The lowest `width` bytes of a number. -/
def toBigEndian : Nat → Nat → List UInt8
  | 0, _ => []
  | width + 1, n => toBigEndian width (n / 256) ++ [UInt8.ofNat (n % 256)]

def toSigned (width n : Nat) : Int :=
  if 2 * n < Nat.pow 256 width then n else n - (Nat.pow 256 width : Nat)

/-- The unsigned number with the same bytes. -/
def ofSigned (width : Nat) (i : Int) : Nat := (i % (Nat.pow 256 width : Nat)).toNat

@[simp] theorem length_toBigEndian (width n : Nat) : (toBigEndian width n).length = width := by
  induction width generalizing n with
  | zero => rfl
  | succ width ih => simp [toBigEndian, ih]

theorem ofBigEndian_toBigEndian (width n : Nat) :
    ofBigEndian (toBigEndian width n) = n % Nat.pow 256 width := by
  induction width generalizing n with
  | zero => simp [toBigEndian, ofBigEndian, Nat.mod_one]
  | succ width ih =>
    have hb : (UInt8.ofNat (n % 256)).toNat = n % 256 := by simp
    have h := ih (n / 256)
    simp only [ofBigEndian] at h
    simp only [toBigEndian, ofBigEndian, List.foldl_append, List.foldl_cons, List.foldl_nil, h, hb]
    have hpow : Nat.pow 256 (width + 1) = 256 * Nat.pow 256 width := Nat.mul_comm _ _
    rw [hpow, Nat.mod_mul]
    omega

structure Cursor where
  bytes : Array UInt8
  position : Nat := 0
  position_le : position ≤ bytes.size := by omega

namespace Cursor

def ofBytes (bytes : Array UInt8) : Cursor := { bytes }

def remaining (c : Cursor) : Nat := c.bytes.size - c.position

def atEnd (c : Cursor) : Bool := c.position = c.bytes.size

def seek (position : Nat) : Edit Cursor Unit := fun c =>
  if h : position ≤ c.bytes.size then .ok () ⟨c.bytes, position, h⟩ else .error .outOfBounds c

def advance (count : Nat) : Edit Cursor Unit := fun c =>
  if h : c.position + count ≤ c.bytes.size then .ok () ⟨c.bytes, c.position + count, h⟩
  else .error .outOfBounds c

def readBytes (count : Nat) : Edit Cursor (List UInt8) := fun c =>
  if h : c.position + count ≤ c.bytes.size then
    .ok (c.bytes.extract c.position (c.position + count)).toList
      ⟨c.bytes, c.position + count, h⟩
  else .error .outOfBounds c

/-- An unsigned number of `width` bytes. Floating point numbers are read so too, as words. -/
def readUnsigned (width : Nat) : Edit Cursor Nat := ofBigEndian <$> readBytes width

def readSigned (width : Nat) : Edit Cursor Int := toSigned width <$> readUnsigned width

/-- A number of two bytes, of which the tables are made. -/
def readWord : Edit Cursor UInt16 := UInt16.ofNat <$> readUnsigned 2

end Cursor

structure Buffer where
  bytes : Array UInt8
  offset : Nat

namespace Buffer

def zeros (size : Nat) : Buffer := ⟨Array.replicate size 0, 0⟩

/-- Puts new bytes in the place of the old ones from `start` on. -/
def overwrite (bytes : Array UInt8) : Nat → List UInt8 → Array UInt8
  | _, [] => bytes
  | start, b :: rest => overwrite (bytes.setIfInBounds start b) (start + 1) rest

@[simp] theorem size_overwrite (bytes : Array UInt8) (start : Nat) (new : List UInt8) :
    (overwrite bytes start new).size = bytes.size := by
  induction new generalizing bytes start with
  | nil => rfl
  | cons b rest ih => simp [overwrite, ih]

def writeUnsigned (width n : Nat) : Edit Buffer Unit := fun b =>
  if b.offset + width ≤ b.bytes.size then
    .ok () ⟨overwrite b.bytes b.offset (toBigEndian width n), b.offset + width⟩
  else .error .outOfBounds b

def writeSigned (width : Nat) (i : Int) : Edit Buffer Unit := writeUnsigned width (ofSigned width i)

def writeWord (w : UInt16) : Edit Buffer Unit := writeUnsigned 2 w.toNat

end Buffer

end MethodFlow.Bytes
