import MethodFlow.Proofs.Bytes.Tape
import MethodFlow.Proofs.Bytes.Words
import Mathlib.Data.Int.ModEq

/-!
Runs of a reading position. Whatever is asked of it, one request after another, it stays inside the
row, and it moves exactly where a request is granted. A number that is read is the one that the
bytes in between write, and a number that was written is read back.
-/

namespace MethodFlow.Bytes

open Edit

/-- The number that digits write whose weight grows by 256 from right to left. -/
def placeValue : List UInt8 → Nat
  | [] => 0
  | b :: rest => b.toNat * 256 ^ rest.length + placeValue rest

theorem placeValue_append (bs : List UInt8) (b : UInt8) :
    placeValue (bs ++ [b]) = placeValue bs * 256 + b.toNat := by
  induction bs with
  | nil => simp [placeValue]
  | cons a rest ih =>
    rw [List.cons_append, placeValue, placeValue, ih, List.length_append,
      List.length_singleton, Nat.pow_succ, Nat.add_mul, Nat.mul_assoc, Nat.add_assoc]

theorem ofBigEndian_eq_placeValue (bs : List UInt8) : ofBigEndian bs = placeValue bs := by
  induction bs using List.reverseRecOn with
  | nil => rfl
  | append_singleton bs b ih =>
    rw [placeValue_append, ← ih]
    simp [ofBigEndian]

theorem placeValue_lt (bs : List UInt8) : placeValue bs < 256 ^ bs.length := by
  rw [← ofBigEndian_eq_placeValue, ← toBigEndian_ofBigEndian bs, ofBigEndian_toBigEndian,
    length_toBigEndian]
  exact Nat.mod_lt _ (Nat.pow_pos (by decide))

namespace Primitive

variable {p : Primitive} {v w : Int} {n : Nat}

/-- The number is in the range of the primitive. Signed numbers reach half as far, to both sides of
zero. -/
def Holds (p : Primitive) (v : Int) : Prop :=
  if p.isSigned then -256 ^ p.width ≤ 2 * v ∧ 2 * v < 256 ^ p.width else 0 ≤ v ∧ v < 256 ^ p.width

/-- The bytes write the number. Those of a negative number write it with `256 ^ p.width` added. -/
structure Denotes (p : Primitive) (bs : List UInt8) (v : Int) : Prop where
  length : bs.length = p.width
  holds : p.Holds v
  value : v % 256 ^ p.width = placeValue bs

theorem cast_pow_width (p : Primitive) : ((Nat.pow 256 p.width : Nat) : Int) = 256 ^ p.width :=
  Int.natCast_pow 256 p.width

theorem Holds.eq_of_emod (hv : p.Holds v) (hw : p.Holds w)
    (h : v % 256 ^ p.width = w % 256 ^ p.width) :
    v = w := by
  have hclose : |w - v| < 256 ^ p.width := by
    rw [abs_lt]
    unfold Holds at hv hw
    cases hsigned : p.isSigned <;>
      simp only [hsigned, if_true, Bool.false_eq_true, if_false] at hv hw <;> omega
  have hzero := Int.eq_zero_of_abs_lt_dvd (Int.ModEq.dvd h) hclose
  omega

theorem ofUnsigned_spec (h : n < 256 ^ p.width) :
    p.Holds (p.ofUnsigned n) ∧ p.ofUnsigned n % 256 ^ p.width = n := by
  have hn : (n : Int) < 256 ^ p.width := by exact_mod_cast h
  have hmod : (n : Int) % 256 ^ p.width = n := Int.emod_eq_of_lt (Int.natCast_nonneg n) hn
  unfold Holds ofUnsigned
  cases hsigned : p.isSigned with
  | false => exact ⟨⟨Int.natCast_nonneg n, hn⟩, hmod⟩
  | true =>
    rw [if_pos rfl, if_pos rfl, toSigned, cast_pow_width]
    split
    · next hlow =>
      have hlow : 2 * (n : Int) < 256 ^ p.width := by
        rw [← cast_pow_width]
        exact_mod_cast hlow
      exact ⟨⟨by omega, hlow⟩, hmod⟩
    · next hhigh =>
      have hhigh : 256 ^ p.width ≤ 2 * (n : Int) := by
        rw [← cast_pow_width]
        exact_mod_cast Nat.le_of_not_lt hhigh
      exact ⟨⟨by omega, by omega⟩, by rw [Int.sub_emod_right, hmod]⟩

theorem toUnsigned_spec (h : p.Holds v) :
    p.toUnsigned v < 256 ^ p.width ∧ (p.toUnsigned v : Int) = v % 256 ^ p.width := by
  have hpos : (0 : Int) < 256 ^ p.width := Int.pow_pos (by decide)
  have hvalue : (p.toUnsigned v : Int) = v % 256 ^ p.width := by
    unfold Holds at h
    unfold toUnsigned
    cases hsigned : p.isSigned with
    | false =>
      rw [hsigned] at h
      exact (Int.toNat_of_nonneg h.1).trans (Int.emod_eq_of_lt h.1 h.2).symm
    | true =>
      rw [if_pos rfl, ofSigned, cast_pow_width]
      exact Int.toNat_of_nonneg (Int.emod_nonneg v (Int.ne_of_gt hpos))
  refine ⟨?_, hvalue⟩
  have hlt := Int.emod_lt_of_pos v hpos
  rw [← hvalue] at hlt
  exact_mod_cast hlt

theorem ofUnsigned_toUnsigned (h : p.Holds v) : p.ofUnsigned (p.toUnsigned v) = v := by
  obtain ⟨hlt, hmod⟩ := toUnsigned_spec h
  obtain ⟨hholds, hvalue⟩ := ofUnsigned_spec hlt
  exact hholds.eq_of_emod h (hvalue.trans hmod)

end Primitive

section calls

variable {p : Primitive} {r : CursorRequest} {c : Cursor} {b : Buffer} {v : Int} {count : Nat}

theorem Cursor.readPrimitive_eq (p : Primitive) :
    readPrimitive p = p.ofUnsigned <$> readUnsigned p.width := by
  cases p <;> rfl

theorem Buffer.writePrimitive_eq (p : Primitive) (v : Int) :
    writePrimitive p v = writeUnsigned p.width (p.toUnsigned v) := by
  cases p <;> rfl

def CursorRequest.stop : CursorRequest → Nat → Nat
  | read p, position => position + p.width
  | readBytes count, position => position + count.toNat
  | seek target, _ => target.toNat
  | advance step, position => position + step.toNat

/-- What a request gives back when it passes over bytes. -/
def CursorRequest.Finds : CursorRequest → List UInt8 → Reading → Prop
  | read p, passed, found => ∃ v, found = .number v ∧ p.Denotes passed v
  | readBytes _, passed, found => found = .bytes passed
  | seek _, _, found | advance _, _, found => found = .nothing

/-- A request is granted exactly where it asks for a position up to the end, and then the cursor
stands there. A request that is refused leaves the cursor. -/
structure CursorRequest.Served (r : CursorRequest) (c : Cursor) : Prop where
  granted : r.stop c.position ≤ c.bytes.size → Yields r.run c fun found c' =>
    c'.bytes = c.bytes ∧ c'.position = r.stop c.position ∧
      r.Finds (c.bytes.extract c.position c'.position).toList found
  refused : c.bytes.size < r.stop c.position → r.run c = .error .outOfBounds c

/-- The bytes of a number of a primitive denote it. -/
theorem Primitive.denotes_ofUnsigned {bs : List UInt8} (h : bs.length = p.width) :
    p.Denotes bs (p.ofUnsigned (ofBigEndian bs)) := by
  have hlt : ofBigEndian bs < 256 ^ p.width := by
    rw [ofBigEndian_eq_placeValue, ← h]
    exact placeValue_lt bs
  obtain ⟨hholds, hvalue⟩ := p.ofUnsigned_spec hlt
  exact ⟨h, hholds, hvalue.trans (congrArg Nat.cast (ofBigEndian_eq_placeValue bs))⟩

theorem Cursor.readBytes_of_le (h : c.position + count ≤ c.bytes.size) :
    readBytes count c =
      .ok (c.bytes.extract c.position (c.position + count)).toList
        ⟨c.bytes, c.position + count, h⟩ :=
  dif_pos h

theorem Cursor.readBytes_of_lt (h : c.bytes.size < c.position + count) :
    readBytes count c = .error .outOfBounds c := dif_neg (Nat.not_le.2 h)

theorem CursorRequest.served (r : CursorRequest) (c : Cursor) : r.Served c := by
  cases r with
  | read p =>
    have hrun : (read p).run = (fun n => .number (p.ofUnsigned n)) <$>
        Cursor.readUnsigned p.width := by
      rw [run, Cursor.readPrimitive_eq, Functor.map_map]
    refine ⟨fun h => ?_, fun h => ?_⟩
    · have hlength : (c.bytes.extract c.position (c.position + p.width)).toList.length =
          p.width := by
        have : c.position + p.width ≤ c.bytes.size := h
        simp
        omega
      rw [hrun]
      exact ⟨_, _, map_ok.2 ⟨_, map_ok.2 ⟨_, Cursor.readBytes_of_le h, rfl⟩, rfl⟩, rfl, rfl, _, rfl,
        Primitive.denotes_ofUnsigned hlength⟩
    · rw [hrun]
      exact map_error.2 (map_error.2 (Cursor.readBytes_of_lt h))
  | readBytes count =>
    refine ⟨fun h => ⟨_, _, map_ok.2 ⟨_, Cursor.readBytes_of_le h, rfl⟩, rfl, rfl, rfl⟩,
      fun h => ?_⟩
    exact map_error.2 (Cursor.readBytes_of_lt h)
  | seek _ | advance _ =>
    refine ⟨fun h => ?_, fun h => ?_⟩
    · exact .of_first (dif_pos h) ⟨_, _, rfl, rfl, rfl, rfl⟩
    · exact bind_error.2 (.inl (dif_neg (Nat.not_le.2 h)))

/-- No request changes the bytes. -/
theorem CursorRequest.bytes_after (r : CursorRequest) (c : Cursor) :
    (r.run.after c).bytes = c.bytes := by
  rcases Nat.lt_or_ge c.bytes.size (r.stop c.position) with h | h
  · rw [after_of_error ((r.served c).refused h)]
  · obtain ⟨found, c', hrun, hbytes, -⟩ := (r.served c).granted h
    rw [after_of_ok hrun, hbytes]

theorem Cursor.bytes_requests (c : Cursor) (rs : List CursorRequest) :
    (c.requests rs).bytes = c.bytes := by
  induction rs generalizing c with
  | nil => rfl
  | cons r rest ih => exact (ih _).trans (r.bytes_after c)

/-- What was written where the buffer stood, a cursor reads there. -/
theorem Buffer.read_of_written (hholds : p.Holds v) (hroom : b.offset + p.width ≤ b.bytes.size) :
    Yields (writePrimitive p v) b fun _ b' =>
      b'.offset = b.offset + p.width ∧ ∀ c : Cursor, c.bytes = b'.bytes → c.position = b.offset →
        Yields (Cursor.readPrimitive p) c fun w c' => w = v ∧ c'.position = b'.offset := by
  rw [writePrimitive_eq]
  refine ⟨(), _, if_pos hroom, rfl, fun c hbytes hposition => ?_⟩
  have hlength : (toBigEndian p.width (p.toUnsigned v)).length = p.width := length_toBigEndian _ _
  obtain ⟨c', hreads⟩ := Cursor.exists_reads (isPrefix_rest (hlength.symm ▸ hroom) hbytes hposition)
  have hvalue : ofBigEndian (toBigEndian p.width (p.toUnsigned v)) = p.toUnsigned v := by
    rw [ofBigEndian_toBigEndian]
    exact Nat.mod_eq_of_lt (p.toUnsigned_spec hholds).1
  rw [Cursor.readPrimitive_eq]
  refine ⟨_, c',
    map_ok.2 ⟨_, map_ok.2 ⟨_, Cursor.readBytes_ok.2 ⟨hlength, hreads⟩, rfl⟩, rfl⟩, ?_, ?_⟩
  · rw [hvalue, p.ofUnsigned_toUnsigned hholds]
  · rw [hreads.position, hposition, hlength]

end calls

/-- Whatever has been asked of a position in a row of bytes, the bytes are what they were, and the
position and what remains behind it make up the row. A request is granted exactly where it asks for
a position up to the end, and then it moves there and gives back what the bytes in between write.
Otherwise the position stays. Machine words do the same, whatever words the requests hold. A number
of any primitive that is written is read back where it was written. -/
theorem cursor_of_requests (bytes : Array UInt8) (hsize : bytes.size < UInt64.size)
    (earlier : List CursorRequest) :
    let c := (Cursor.ofBytes bytes).requests earlier
    let m := Tape.requests { bytes, size_lt := hsize } earlier
    c.bytes = bytes ∧ c.position + c.remaining = bytes.size ∧
      m.bytes = bytes ∧ m.position.toNat = c.position ∧ m.position ≤ m.length ∧
      m.position + m.remaining = m.length ∧
      (∀ r : CursorRequest, r.Served c ∧ Matches Tape.LikeCursor (r.runOnTape m) (r.run c)) ∧
      (∀ (p : Primitive) (v : Int) (b : Buffer), p.Holds v → b.offset + p.width ≤ b.bytes.size →
        Yields (Buffer.writePrimitive p v) b fun _ b' =>
          b'.offset = b.offset + p.width ∧ ∀ c : Cursor, c.bytes = b'.bytes →
            c.position = b.offset →
            Yields (Cursor.readPrimitive p) c fun w c' => w = v ∧ c'.position = b'.offset) ∧
      ∀ (p : Primitive) (v : Int),
        Simulates Tape.LikeBuffer (Tape.writePrimitive p v) (Buffer.writePrimitive p v) := by
  intro c m
  have hbytes : c.bytes = bytes := Cursor.bytes_requests _ earlier
  have hlike : m.LikeCursor c := Tape.LikeCursor.requests ⟨rfl, rfl⟩ earlier
  have hle : m.position.toNat ≤ m.bytes.size := by
    rw [hlike.1, hlike.2]
    exact c.position_le
  have hremaining : (m.position + m.remaining).toNat = m.length.toNat := by
    rw [Tape.toNat_position_add (by rw [m.toNat_remaining]; omega), m.toNat_remaining,
      m.toNat_length]
    omega
  refine ⟨hbytes, ?_, hlike.1.trans hbytes, hlike.2, ?_, UInt64.toNat_inj.1 hremaining,
    fun r => ⟨r.served c, Tape.simulates_run r m c hlike⟩, fun p v b => Buffer.read_of_written,
    Tape.simulates_writePrimitive⟩
  · rw [← hbytes, Cursor.remaining]
    exact Nat.add_sub_cancel' c.position_le
  · rw [UInt64.le_iff_toNat_le, m.toNat_length]
    exact hle

/-- Two bytes of five are read as a negative number. Then the largest step is refused, and so is a
number of four bytes. -/
theorem cursor_of_requests_at_limit :
    let bytes : Array UInt8 := #[0, 255, 254, 65, 7]
    let asked : List CursorRequest := [.seek 1, .read .i16, .advance 18446744073709551615]
    let c := (Cursor.ofBytes bytes).requests asked
    bytes.size < UInt64.size ∧ c.position = 3 ∧ c.remaining = 2 ∧
      (CursorRequest.read .i32).run c = .error .outOfBounds c ∧
      Yields (CursorRequest.readBytes 2).run c fun found c' => c'.position = 5 ∧
        found = .bytes [65, 7] := by
  intro bytes asked c
  have hposition : c.position = 3 := by decide +kernel
  obtain ⟨hbytes, hremaining, -, -, -, -, hserved, -⟩ := cursor_of_requests bytes (by decide) asked
  have hsize : c.bytes.size = 5 := congrArg Array.size hbytes
  have hrest : c.remaining = 2 := by
    have hsum : c.position + c.remaining = 5 := hremaining
    omega
  have hrefused : c.bytes.size < (CursorRequest.read .i32).stop c.position := by
    rw [hsize, hposition]
    decide
  have hgranted : (CursorRequest.readBytes 2).stop c.position ≤ c.bytes.size := by
    rw [hsize, hposition]
    decide
  refine ⟨by decide, hposition, hrest, (hserved (.read .i32)).1.refused hrefused, ?_⟩
  refine ((hserved (.readBytes 2)).1.granted hgranted).mono fun found c' ⟨_, hmoved, hfound⟩ => ?_
  have hend : c'.position = 5 := by rw [hmoved, hposition]; rfl
  refine ⟨hend, hfound.trans ?_⟩
  rw [hbytes, hposition, hend]
  rfl

end MethodFlow.Bytes
