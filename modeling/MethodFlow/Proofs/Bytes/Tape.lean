import MethodFlow.Bytes.Primitive
import MethodFlow.Proofs.Edit

/-!
Machine words do for positions what numbers do. A sum that wraps round is refused like one that
passes the end, and where nothing is refused, nothing wraps round.
-/

namespace MethodFlow.Bytes

open Edit

variable {a b : UInt64}

theorem toNat_sum (h : a.toNat + b.toNat < UInt64.size) : (a + b).toNat = a.toNat + b.toNat := by
  rw [UInt64.toNat_add, Nat.mod_eq_of_lt h]

theorem checkedSum_of_lt (h : a.toNat + b.toNat < UInt64.size) : checkedSum a b = some (a + b) := by
  rw [checkedSum, if_neg]
  rw [UInt64.lt_iff_toNat_lt, toNat_sum h]
  omega

theorem checkedSum_of_le (h : UInt64.size ≤ a.toNat + b.toNat) : checkedSum a b = none := by
  have ha := a.toNat_lt
  have hb := b.toNat_lt
  rw [checkedSum, if_pos]
  rw [UInt64.lt_iff_toNat_lt, UInt64.toNat_add]
  simp only [UInt64.size] at h
  omega

theorem toNat_saturatingDifference : (saturatingDifference a b).toNat = a.toNat - b.toNat := by
  rw [saturatingDifference]
  split
  · next h =>
    rw [UInt64.lt_iff_toNat_lt] at h
    simp
    omega
  · next h =>
    rw [UInt64.lt_iff_toNat_lt] at h
    exact UInt64.toNat_sub_of_le _ _ (UInt64.le_iff_toNat_le.2 (by omega))

namespace Tape

variable {m : Tape} {width : UInt64}

theorem toNat_length (m : Tape) : m.length.toNat = m.bytes.size :=
  UInt64.toNat_ofNat_of_lt m.size_lt

theorem length_lt {position : UInt64} : m.length < position ↔ m.bytes.size < position.toNat := by
  rw [UInt64.lt_iff_toNat_lt, toNat_length]

theorem toNat_remaining (m : Tape) : m.remaining.toNat = m.bytes.size - m.position.toNat := by
  rw [remaining, toNat_saturatingDifference, toNat_length]

theorem remaining_lt (h : m.position.toNat ≤ m.bytes.size) :
    m.remaining < width ↔ m.bytes.size < m.position.toNat + width.toNat := by
  rw [UInt64.lt_iff_toNat_lt, toNat_remaining]
  omega

theorem toNat_position_add (h : m.position.toNat + width.toNat ≤ m.bytes.size) :
    (m.position + width).toNat = m.position.toNat + width.toNat :=
  toNat_sum (Nat.lt_of_le_of_lt h m.size_lt)

theorem stop?_of_le (h : m.position.toNat + width.toNat ≤ m.bytes.size) :
    m.stop? width = some (m.position + width) := by
  rw [stop?, checkedSum_of_lt (Nat.lt_of_le_of_lt h m.size_lt)]
  refine if_neg ?_
  rw [length_lt, toNat_position_add h]
  omega

theorem stop?_of_lt (h : m.bytes.size < m.position.toNat + width.toNat) : m.stop? width = none := by
  rw [stop?]
  rcases Nat.lt_or_ge (m.position.toNat + width.toNat) UInt64.size with hlt | hge
  · rw [checkedSum_of_lt hlt]
    exact if_pos (length_lt.2 (toNat_sum hlt ▸ h))
  · rw [checkedSum_of_le hge]

def LikeCursor (m : Tape) (c : Cursor) : Prop := m.bytes = c.bytes ∧ m.position.toNat = c.position

def LikeBuffer (m : Tape) (b : Buffer) : Prop := m.bytes = b.bytes ∧ m.position.toNat = b.offset

theorem simulates_seek (position : UInt64) :
    Simulates LikeCursor (seek position) (Cursor.seek position.toNat) := by
  rintro ⟨bytes, pos, hsize⟩ ⟨_, _, hle⟩ ⟨rfl, rfl⟩
  unfold seek Cursor.seek
  by_cases h : position.toNat ≤ bytes.size
  · rw [if_neg (by rw [length_lt]; exact Nat.not_lt.2 h), dif_pos h]
    exact .ok ⟨rfl, rfl⟩
  · rw [if_pos (length_lt.2 (Nat.lt_of_not_le h)), dif_neg h]
    exact .error ⟨rfl, rfl⟩

theorem simulates_advance (step : UInt64) :
    Simulates LikeCursor (advance step) (Cursor.advance step.toNat) := by
  rintro ⟨bytes, pos, hsize⟩ ⟨_, _, hle⟩ ⟨rfl, rfl⟩
  unfold advance Cursor.advance
  by_cases h : pos.toNat + step.toNat ≤ bytes.size
  · rw [if_neg (by rw [remaining_lt hle]; exact Nat.not_lt.2 h), dif_pos h]
    exact .ok ⟨rfl, toNat_position_add h⟩
  · rw [if_pos ((remaining_lt hle).2 (Nat.lt_of_not_le h)), dif_neg h]
    exact .error ⟨rfl, rfl⟩

theorem simulates_readBytes (count : UInt64) :
    Simulates LikeCursor (readBytes count) (Cursor.readBytes count.toNat) := by
  rintro ⟨bytes, pos, hsize⟩ ⟨_, _, hle⟩ ⟨rfl, rfl⟩
  unfold readBytes Cursor.readBytes
  by_cases h : pos.toNat + count.toNat ≤ bytes.size
  · rw [if_neg (by rw [remaining_lt hle]; exact Nat.not_lt.2 h), dif_pos h, toNat_position_add h]
    exact .ok ⟨rfl, toNat_position_add h⟩
  · rw [if_pos ((remaining_lt hle).2 (Nat.lt_of_not_le h)), dif_neg h]
    exact .error ⟨rfl, rfl⟩

theorem simulates_readUnsigned (width : UInt64) :
    Simulates LikeCursor (readUnsigned width) (Cursor.readUnsigned width.toNat) := by
  rintro ⟨bytes, pos, hsize⟩ ⟨_, _, hle⟩ ⟨rfl, rfl⟩
  show Matches LikeCursor _ (EStateM.map ofBigEndian (Cursor.readBytes width.toNat) _)
  unfold readUnsigned EStateM.map Cursor.readBytes
  by_cases h : pos.toNat + width.toNat ≤ bytes.size
  · have hsum : (pos + width).toNat = pos.toNat + width.toNat :=
      toNat_sum (Nat.lt_of_le_of_lt h hsize)
    rw [stop?_of_le h, dif_pos h]
    dsimp only
    rw [hsum]
    exact .ok ⟨rfl, hsum⟩
  · rw [stop?_of_lt (Nat.lt_of_not_le h), dif_neg h]
    exact .error ⟨rfl, rfl⟩

theorem simulates_writeUnsigned (width : UInt64) (n : Nat) :
    Simulates LikeBuffer (writeUnsigned width n) (Buffer.writeUnsigned width.toNat n) := by
  rintro ⟨bytes, pos, hsize⟩ ⟨_, _⟩ ⟨rfl, rfl⟩
  unfold writeUnsigned Buffer.writeUnsigned
  by_cases h : pos.toNat + width.toNat ≤ bytes.size
  · rw [stop?_of_le h, if_pos h]
    exact .ok ⟨rfl, toNat_position_add h⟩
  · rw [stop?_of_lt (Nat.lt_of_not_le h), if_neg h]
    exact .error ⟨rfl, rfl⟩

theorem simulates_writeWord (w : UInt16) :
    Simulates LikeBuffer (writeWord w) (Buffer.writeWord w) :=
  simulates_writeUnsigned 2 w.toNat

theorem simulates_readPrimitive (p : Primitive) :
    Simulates LikeCursor (readPrimitive p) (Cursor.readPrimitive p) := by
  cases p <;> exact (simulates_readUnsigned _).map

theorem simulates_writePrimitive (p : Primitive) (v : Int) :
    Simulates LikeBuffer (writePrimitive p v) (Buffer.writePrimitive p v) := by
  cases p <;> exact simulates_writeUnsigned _ _

theorem simulates_run (r : CursorRequest) : Simulates LikeCursor r.runOnTape r.run := by
  cases r with
  | read p => exact (simulates_readPrimitive p).map
  | readBytes count => exact (simulates_readBytes count).map
  | seek position => exact (simulates_seek position).bind fun _ => .pure _
  | advance step => exact (simulates_advance step).bind fun _ => .pure _

theorem LikeCursor.requests {m : Tape} {c : Cursor} (h : m.LikeCursor c) (rs : List CursorRequest) :
    (m.requests rs).LikeCursor (c.requests rs) := by
  induction rs generalizing m c with
  | nil => exact h
  | cons r rest ih => exact ih ((simulates_run r).after h)

end Tape

end MethodFlow.Bytes
