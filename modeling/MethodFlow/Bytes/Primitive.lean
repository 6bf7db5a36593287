import MethodFlow.Bytes.Tape

/-!
The numbers that have a width of their own, and what may be asked of a position in a row of bytes.
Floating point numbers are taken as the words that write them.
-/

namespace MethodFlow.Bytes

inductive Primitive where
  | u8 | i8 | u16 | i16 | u32 | i32 | u64 | i64 | f32 | f64
deriving DecidableEq

namespace Primitive

def width : Primitive → Nat
  | u8 | i8 => 1
  | u16 | i16 => 2
  | u32 | i32 | f32 => 4
  | u64 | i64 | f64 => 8

def isSigned : Primitive → Bool
  | i8 | i16 | i32 | i64 => true
  | u8 | u16 | u32 | u64 | f32 | f64 => false

/-- The number whose bytes write `n` when they are taken as an unsigned number. -/
def ofUnsigned (p : Primitive) (n : Nat) : Int := if p.isSigned then toSigned p.width n else n

def toUnsigned (p : Primitive) (v : Int) : Nat := if p.isSigned then ofSigned p.width v else v.toNat

end Primitive

def Cursor.readPrimitive (p : Primitive) : Edit Cursor Int :=
  if p.isSigned then readSigned p.width else Int.ofNat <$> readUnsigned p.width

def Buffer.writePrimitive (p : Primitive) (v : Int) : Edit Buffer Unit :=
  if p.isSigned then writeSigned p.width v else writeUnsigned p.width v.toNat

def Tape.readPrimitive (p : Primitive) : Edit Tape Int :=
  p.ofUnsigned <$> readUnsigned (.ofNat p.width)

def Tape.writePrimitive (p : Primitive) (v : Int) : Edit Tape Unit :=
  writeUnsigned (.ofNat p.width) (p.toUnsigned v)

/-- What may be asked of a reading position. -/
inductive CursorRequest where
  | read (p : Primitive)
  | readBytes (count : UInt64)
  | seek (position : UInt64)
  | advance (step : UInt64)

inductive Reading where
  | nothing
  | number (v : Int)
  | bytes (bs : List UInt8)
deriving DecidableEq

namespace CursorRequest

def run : CursorRequest → Edit Cursor Reading
  | read p => .number <$> Cursor.readPrimitive p
  | readBytes count => .bytes <$> Cursor.readBytes count.toNat
  | seek position => do
    Cursor.seek position.toNat
    return .nothing
  | advance step => do
    Cursor.advance step.toNat
    return .nothing

def runOnTape : CursorRequest → Edit Tape Reading
  | read p => .number <$> Tape.readPrimitive p
  | readBytes count => .bytes <$> Tape.readBytes count
  | seek position => do
    Tape.seek position
    return .nothing
  | advance step => do
    Tape.advance step
    return .nothing

end CursorRequest

/-- The cursor after a list of requests, refused or not. -/
def Cursor.requests (c : Cursor) (rs : List CursorRequest) : Cursor :=
  rs.foldl (fun c r => r.run.after c) c

def Tape.requests (m : Tape) (rs : List CursorRequest) : Tape :=
  rs.foldl (fun m r => r.runOnTape.after m) m

end MethodFlow.Bytes
