import MethodFlow.Bytes.Basic
import MethodFlow.Proofs.Edit
import Mathlib.Data.List.Basic
import Mathlib.Data.List.Induction

/-!
Rows of two-byte words. Every two bytes are a word, and a word is the two bytes that write it. What
a cursor reads is a prefix of what remains before it, and what a buffer writes stands where its
offset was.
-/

namespace MethodFlow.Bytes

theorem toBigEndian_ofBigEndian (bytes : List UInt8) :
    toBigEndian bytes.length (ofBigEndian bytes) = bytes := by
  induction bytes using List.reverseRecOn with
  | nil => rfl
  | append_singleton bytes b ih =>
    have hb : b.toNat < 256 := b.toNat_lt
    have hsplit : ofBigEndian (bytes ++ [b]) = ofBigEndian bytes * 256 + b.toNat := by
      simp [ofBigEndian]
    rw [List.length_append, List.length_singleton, toBigEndian, hsplit,
      show (ofBigEndian bytes * 256 + b.toNat) / 256 = ofBigEndian bytes by omega,
      show (ofBigEndian bytes * 256 + b.toNat) % 256 = b.toNat by omega, ih, UInt8.ofNat_toNat]

def pack (ws : List UInt16) : List UInt8 := ws.flatMap fun w => toBigEndian 2 w.toNat

/-- The words of a row of bytes. A last byte without a partner is left out. -/
def wordsOf : List UInt8 → List UInt16
  | high :: low :: rest => UInt16.ofNat (ofBigEndian [high, low]) :: wordsOf rest
  | _ => []

@[simp] theorem pack_nil : pack [] = [] := rfl

@[simp] theorem pack_append (ws vs : List UInt16) : pack (ws ++ vs) = pack ws ++ pack vs := by
  simp [pack]

theorem pack_cons (w : UInt16) (ws : List UInt16) : pack (w :: ws) = pack [w] ++ pack ws :=
  pack_append [w] ws

@[simp] theorem length_pack (ws : List UInt16) : (pack ws).length = 2 * ws.length := by
  induction ws with
  | nil => rfl
  | cons w ws ih => rw [pack_cons, List.length_append, ih, List.length_cons]; simp [pack]; omega

theorem pack_ofBigEndian {bytes : List UInt8} (h : bytes.length = 2) :
    pack [UInt16.ofNat (ofBigEndian bytes)] = bytes := by
  match bytes, h with
  | [high, low], _ =>
    have hhigh : high.toNat < 256 := high.toNat_lt
    have hlow : low.toNat < 256 := low.toNat_lt
    have hsmall : ofBigEndian [high, low] < 65536 := by simp only [ofBigEndian, List.foldl]; omega
    simpa [pack, Nat.mod_eq_of_lt hsmall] using toBigEndian_ofBigEndian [high, low]

theorem ofNat_ofBigEndian_pack (w : UInt16) : UInt16.ofNat (ofBigEndian (pack [w])) = w := by
  have hw : w.toNat < 65536 := w.toNat_lt
  simp [pack, ofBigEndian_toBigEndian, Nat.mod_eq_of_lt hw]

@[simp] theorem wordsOf_pack (ws : List UInt16) : wordsOf (pack ws) = ws := by
  induction ws with
  | nil => rfl
  | cons w ws ih =>
    rw [pack_cons]
    obtain ⟨high, low, hw⟩ : ∃ high low, pack [w] = [high, low] := List.length_eq_two.1 (by simp)
    have hword : UInt16.ofNat (ofBigEndian [high, low]) = w := by rw [← hw, ofNat_ofBigEndian_pack]
    rw [hw, List.cons_append, List.cons_append, List.nil_append, wordsOf, ih, hword]

theorem pack_wordsOf : ∀ (count : Nat) (bytes : List UInt8), bytes.length = 2 * count →
    pack (wordsOf bytes) = bytes
  | 0, bytes, h => by rw [List.length_eq_zero_iff.1 (h.trans (Nat.mul_zero 2))]; rfl
  | count + 1, high :: low :: rest, h => by
    rw [wordsOf, pack_cons, pack_ofBigEndian rfl, pack_wordsOf count rest (by simp at h; omega)]
    rfl

namespace Cursor

variable {c c' c'' : Cursor} {bs bs' : List UInt8}

def rest (c : Cursor) : List UInt8 := c.bytes.toList.drop c.position

/-- `c'` stands behind the bytes `bs`, before which `c` stands. -/
def Reads (c : Cursor) (bs : List UInt8) (c' : Cursor) : Prop :=
  c'.bytes = c.bytes ∧ c.rest = bs ++ c'.rest

theorem length_rest (c : Cursor) : c.rest.length = c.remaining := by simp [rest, remaining]

theorem eq_of_position (hbytes : c.bytes = c'.bytes) (h : c.position = c'.position) : c = c' := by
  cases c
  cases c'
  cases hbytes
  cases h
  rfl

namespace Reads

theorem refl (c : Cursor) : c.Reads [] c := ⟨rfl, rfl⟩

theorem trans (h : c.Reads bs c') (h' : c'.Reads bs' c'') : c.Reads (bs ++ bs') c'' :=
  ⟨h'.1.trans h.1, by rw [h.2, h'.2, List.append_assoc]⟩

theorem position (h : c.Reads bs c') : c'.position = c.position + bs.length := by
  have hlength := congrArg List.length h.2
  rw [List.length_append, length_rest, length_rest, remaining, remaining, h.1] at hlength
  have := c.position_le
  have hle := c'.position_le
  rw [h.1] at hle
  omega

theorem isPrefix (h : c.Reads bs c') : bs <+: c.rest := ⟨c'.rest, h.2.symm⟩

theorem bytes_eq (h : c.Reads bs c') : bs = (c.bytes.extract c.position c'.position).toList := by
  rw [Array.toList_extract, List.extract_eq_take_drop, h.position, Nat.add_sub_cancel_left]
  exact List.prefix_iff_eq_take.1 h.isPrefix

/-- Where the reading ends is known from what is read. -/
theorem unique (h : c.Reads bs c') (h' : c.Reads bs c'') : c' = c'' :=
  eq_of_position (h.1.trans h'.1.symm) (h.position.trans h'.position.symm)

end Reads

theorem exists_reads (h : bs <+: c.rest) : ∃ c', c.Reads bs c' := by
  have hlength := h.length_le
  rw [length_rest, remaining] at hlength
  have := c.position_le
  refine ⟨⟨c.bytes, c.position + bs.length, by omega⟩, rfl, ?_⟩
  obtain ⟨tail, htail⟩ := h
  have hrest : c.bytes.toList.drop (c.position + bs.length) = tail := by
    rw [← List.drop_drop]
    exact (congrArg (List.drop bs.length) htail.symm).trans List.drop_left
  rw [← htail, ← hrest]
  rfl

@[simp] theorem reads_nil : c.Reads [] c' ↔ c = c' :=
  ⟨fun h => (Reads.refl c).unique h, fun h => h ▸ Reads.refl c⟩

theorem reads_append : c.Reads (bs ++ bs') c'' ↔ ∃ c', c.Reads bs c' ∧ c'.Reads bs' c'' := by
  refine ⟨fun h => ?_, fun ⟨_, h, h'⟩ => h.trans h'⟩
  obtain ⟨c', hc'⟩ := exists_reads ((List.prefix_append bs bs').trans h.isPrefix)
  refine ⟨c', hc', h.1.trans hc'.1.symm, ?_⟩
  have hrest := hc'.2.symm.trans h.2
  rw [List.append_assoc] at hrest
  exact List.append_cancel_left hrest

theorem reads_cons {w : UInt16} {ws : List UInt16} :
    c.Reads (pack (w :: ws)) c'' ↔ ∃ c', c.Reads (pack [w]) c' ∧ c'.Reads (pack ws) c'' := by
  rw [pack_cons, reads_append]

theorem reads_cons_cons {w v : UInt16} {ws : List UInt16} :
    c.Reads (pack (w :: v :: ws)) c'' ↔ ∃ c', c.Reads (pack [w]) c' ∧
      c'.Reads (pack (v :: ws)) c'' :=
  reads_cons

theorem readBytes_ok {count : Nat} :
    readBytes count c = .ok bs c' ↔ bs.length = count ∧ c.Reads bs c' := by
  constructor
  · intro h
    unfold readBytes at h
    split at h
    next hle =>
      cases h
      refine ⟨by simp; omega, rfl, ?_⟩
      rw [rest, rest, ← List.drop_drop, Array.toList_extract, List.extract_eq_take_drop,
        Nat.add_sub_cancel_left, List.take_append_drop]
    next => cases h
  · rintro ⟨rfl, h⟩
    have hle := c'.position_le
    rw [h.1, h.position] at hle
    have hend : (⟨c.bytes, c.position + bs.length, hle⟩ : Cursor) = c' :=
      eq_of_position h.1.symm h.position.symm
    unfold readBytes
    rw [dif_pos hle, hend, ← h.position, ← h.bytes_eq]

theorem readWord_ok {w : UInt16} : readWord c = .ok w c' ↔ c.Reads (pack [w]) c' := by
  simp only [readWord, readUnsigned, Edit.map_ok, readBytes_ok]
  constructor
  · rintro ⟨_, ⟨bs, ⟨hlength, h⟩, rfl⟩, rfl⟩
    rwa [pack_ofBigEndian hlength]
  · intro h
    exact ⟨_, ⟨pack [w], ⟨by simp, h⟩, rfl⟩, ofNat_ofBigEndian_pack w⟩

end Cursor

namespace Buffer

theorem overwrite_append (bytes : Array UInt8) (start : Nat) (new more : List UInt8) :
    overwrite bytes start (new ++ more) =
      overwrite (overwrite bytes start new) (start + new.length) more := by
  induction new generalizing bytes start with
  | nil => rfl
  | cons b new ih =>
    rw [List.cons_append, overwrite, overwrite, ih, List.length_cons, Nat.add_assoc,
      Nat.add_comm 1 new.length]

theorem toList_overwrite (bytes : Array UInt8) (start : Nat) (new : List UInt8)
    (h : start + new.length ≤ bytes.size) :
    (overwrite bytes start new).toList =
      bytes.toList.take start ++ new ++ bytes.toList.drop (start + new.length) := by
  induction new generalizing bytes start with
  | nil => simp [overwrite]
  | cons b new ih =>
    rw [List.length_cons] at h
    have hstart : start < bytes.toList.length := by simp; omega
    rw [overwrite, ih _ _ (by simp; omega), Array.toList_setIfInBounds,
      List.set_eq_take_append_cons_drop, if_pos hstart, List.length_cons]
    have htake : (bytes.toList.take start).length = start := by simp; omega
    have hdrop : start + 1 + new.length = (bytes.toList.take start).length +
        (new.length + 1) := by omega
    rw [hdrop, List.drop_append, List.take_append, htake]
    simp [List.take_of_length_le, htake, Nat.add_comm, Nat.add_left_comm]

theorem writeWord_ok {b : Buffer} {w : UInt16} (h : b.offset + 2 ≤ b.bytes.size) :
    writeWord w b = .ok () ⟨overwrite b.bytes b.offset (pack [w]), b.offset + 2⟩ := by
  rw [writeWord, writeUnsigned, if_pos h, pack, List.flatMap_singleton]

theorem isPrefix_rest {b : Buffer} {new : List UInt8} {c : Cursor}
    (h : b.offset + new.length ≤ b.bytes.size) (hbytes : c.bytes = overwrite b.bytes b.offset new)
    (hposition : c.position = b.offset) : new <+: c.rest := by
  have hbefore : (b.bytes.toList.take b.offset).length = b.offset := by simp; omega
  rw [Cursor.rest, hbytes, hposition, toList_overwrite _ _ _ h, List.append_assoc,
    List.drop_left' hbefore]
  exact List.prefix_append ..

theorem forM_writeWord {b : Buffer} {ws : List UInt16}
    (h : b.offset + 2 * ws.length ≤ b.bytes.size) :
    ws.forM writeWord b =
      .ok () ⟨overwrite b.bytes b.offset (pack ws), b.offset + 2 * ws.length⟩ := by
  induction ws generalizing b with
  | nil => rfl
  | cons w ws ih =>
    rw [List.length_cons] at h
    rw [List.forM, Edit.bind_ok]
    refine ⟨(), _, writeWord_ok (by omega), ?_⟩
    have hbytes : overwrite (overwrite b.bytes b.offset (pack [w])) (b.offset + 2) (pack ws) =
        overwrite b.bytes b.offset (pack (w :: ws)) := by
      rw [pack_cons w ws, overwrite_append, length_pack, List.length_singleton]
    have hoffset : b.offset + 2 + 2 * ws.length = b.offset + 2 * (ws.length + 1) := by omega
    rw [ih (by simp; omega), List.length_cons, hbytes, hoffset]

end Buffer

end MethodFlow.Bytes
