import MethodFlow.Proofs.Bytes.Tape
import MethodFlow.Proofs.CodeTable.Codec

/-!
What writing a table leaves behind. A table with too many entries leaves nothing. A table that fits
leaves its encoding, and of one that does not fit, as many words as there is room for.
-/

namespace MethodFlow

open Bytes Edit

namespace Bytes

/-- The bytes `new` stand where the buffer stood, and behind them it stands now. The other bytes are
what they were. -/
structure Buffer.Gains (b : Buffer) (new : List UInt8) (b' : Buffer) : Prop where
  size : b'.bytes.size = b.bytes.size
  offset : b'.offset = b.offset + new.length
  written : ∀ i < new.length, b'.bytes[b.offset + i]? = new[i]?
  others : ∀ i, i < b.offset ∨ b.offset + new.length ≤ i → b'.bytes[i]? = b.bytes[i]?

/-- Of a row of bytes, `new` is the longest beginning in whole words for which there is room between
`offset` and `size`. -/
structure LongestFit (bytes : List UInt8) (offset size : Nat) (new : List UInt8) : Prop where
  beginning : new <+: bytes
  whole : 2 ∣ new.length
  fits : new = [] ∨ offset + new.length ≤ size
  longest : ∀ other, other <+: bytes → 2 ∣ other.length →
    offset + other.length ≤ size → other <+: new

def Buffer.room (b : Buffer) : Nat := (b.bytes.size - b.offset) / 2

variable {b : Buffer} {new : List UInt8} {ws : List UInt16}

theorem Buffer.gains_overwrite (h : new = [] ∨ b.offset + new.length ≤ b.bytes.size) :
    b.Gains new ⟨overwrite b.bytes b.offset new, b.offset + new.length⟩ := by
  rcases h with rfl | h
  · exact ⟨rfl, rfl, fun _ hi => absurd hi (Nat.not_lt_zero _), fun _ _ => rfl⟩
  have hlist := toList_overwrite b.bytes b.offset new h
  have hbefore : (b.bytes.toList.take b.offset).length = b.offset := by simp; omega
  refine ⟨size_overwrite .., rfl, fun i hi => ?_, fun i hi => ?_⟩
  · rw [← Array.getElem?_toList, hlist, List.append_assoc,
      List.getElem?_append_right (by omega), hbefore, Nat.add_sub_cancel_left,
      List.getElem?_append_left hi]
  · rw [← Array.getElem?_toList, hlist, List.append_assoc, ← Array.getElem?_toList]
    rcases hi with hi | hi
    · rw [List.getElem?_append_left (by omega), List.getElem?_take_of_lt hi]
    · rw [List.getElem?_append_right (by omega), hbefore, List.getElem?_append_right (by omega),
        List.getElem?_drop]
      congr 1
      omega

/-- Words are written as long as there is room. -/
theorem Buffer.forM_writeWord_error (h : b.bytes.size < b.offset + 2 * ws.length) (hne : ws ≠ []) :
    ws.forM writeWord b = .error .outOfBounds
      ⟨overwrite b.bytes b.offset (pack (ws.take b.room)),
        b.offset + (pack (ws.take b.room)).length⟩ := by
  induction ws generalizing b with
  | nil => exact absurd rfl hne
  | cons w ws ih =>
    rw [List.length_cons] at h
    rw [List.forM, bind_error]
    by_cases hfits : b.offset + 2 ≤ b.bytes.size
    · let b₁ : Buffer := ⟨overwrite b.bytes b.offset (pack [w]), b.offset + 2⟩
      have hsize : b₁.bytes.size = b.bytes.size := size_overwrite ..
      have hroom : b.room = b₁.room + 1 := by
        have hoffset : b₁.offset = b.offset + 2 := rfl
        rw [room, room, hsize, hoffset]
        omega
      have hshort : b₁.bytes.size < b₁.offset + 2 * ws.length := by
        have hoffset : b₁.offset = b.offset + 2 := rfl
        omega
      have hrest := ih hshort (by rintro rfl; simp at h; omega)
      refine .inr ⟨(), b₁, writeWord_ok hfits, hrest.trans ?_⟩
      rw [hroom, List.take_succ_cons, pack_cons, overwrite_append, List.length_append]
      simp [b₁, Nat.add_assoc]
    · have hroom : b.room = 0 := by rw [room]; omega
      refine .inl ?_
      rw [hroom]
      exact if_neg hfits

theorem longestFit_pack (h : b.bytes.size < b.offset + 2 * ws.length) :
    LongestFit (pack ws) b.offset b.bytes.size (pack (ws.take b.room)) := by
  have hroom : b.room = (b.bytes.size - b.offset) / 2 := rfl
  have hbeginning : pack (ws.take b.room) <+: pack ws := by
    refine ⟨pack (ws.drop b.room), ?_⟩
    rw [← pack_append, List.take_append_drop]
  have hlength : (pack (ws.take b.room)).length = 2 * min b.room ws.length := by simp
  refine ⟨hbeginning, ⟨_, hlength⟩, ?_, fun other hother ⟨j, hj⟩ hfits => ?_⟩
  · rw [hlength]
    rcases Nat.eq_zero_or_pos b.room with hzero | hpos
    · exact .inl (by rw [hzero]; rfl)
    · exact .inr (by omega)
  · exact List.prefix_of_prefix_length_le hother hbeginning (by omega)

end Bytes

namespace CodeTable

variable {α : Type} [TableEntry α] {t : CodeTable α} {b : Buffer}

theorem write_tooManyEntries (h : limit < t.entries.length) :
    t.write b = .error (.malformed (.tooManyEntries t.entries.length)) b := by
  have hguard : ¬t.entries.length ≤ limit := Nat.not_le.2 h
  rw [write, bind_error, Edit.guard, if_neg (by simpa using hguard)]
  exact .inl rfl

theorem toBytes_tooManyEntries (h : limit < t.entries.length) :
    t.toBytes = .error (.malformed (.tooManyEntries t.entries.length)) := by
  rw [toBytes, write_tooManyEntries h]

/-- Without room for all of it, a table is written as far as there is room. -/
theorem write_outOfBounds (hlimit : t.entries.length ≤ limit)
    (h : b.bytes.size < b.offset + t.byteLength) :
    ∃ b' new, t.write b = .error .outOfBounds b' ∧
      LongestFit (pack t.words) b.offset b.bytes.size new ∧ b.Gains new b' := by
  rw [← length_pack_words, length_pack] at h
  have hfit := longestFit_pack h
  refine ⟨_, _, ?_, hfit, Buffer.gains_overwrite hfit.fits⟩
  rw [write, bind_error]
  refine .inr ⟨(), b, guard_ok.2 ⟨by simpa using hlimit, rfl⟩, Buffer.forM_writeWord_error h ?_⟩
  exact List.cons_ne_nil _ _

def writeOnTape (t : CodeTable α) : Edit Tape Unit := do
  Edit.guard (t.entries.length ≤ limit) (.malformed (.tooManyEntries t.entries.length))
  t.words.forM Tape.writeWord

theorem simulates_write (t : CodeTable α) : Simulates Tape.LikeBuffer t.writeOnTape t.write :=
  (Simulates.guard _ _).bind fun _ => .forM Tape.simulates_writeWord _

/-- Writing a table into a buffer succeeds exactly where its entries can be counted and there is
room for all of it. Its encoding replaces as many bytes then, and no others. Too many entries change
nothing, and of a table without enough room, as many whole words are written as fit. Machine words
do the same at every offset. -/
structure Written (t : CodeTable α) (b : Buffer) : Prop where
  succeeds : (∃ b', t.write b = .ok () b') ↔
    t.entries.length ≤ limit ∧ b.offset + t.byteLength ≤ b.bytes.size
  whole : ∀ b', t.write b = .ok () b' → t.toBytes = .ok (pack t.words).toArray ∧
    b.Gains (pack t.words) b' ∧ b'.offset = b.offset + t.byteLength
  refused : limit < t.entries.length →
    t.write b = .error (.malformed (.tooManyEntries t.entries.length)) b ∧
      t.toBytes = .error (.malformed (.tooManyEntries t.entries.length))
  cut : t.entries.length ≤ limit → ∀ e b', t.write b = .error e b' →
    e = .outOfBounds ∧ t.toBytes = .ok (pack t.words).toArray ∧
      ∃ new, LongestFit (pack t.words) b.offset b.bytes.size new ∧ b.Gains new b'
  onTape : ∀ m : Tape, m.LikeBuffer b → Matches Tape.LikeBuffer (t.writeOnTape m) (t.write b)

theorem written (t : CodeTable α) (b : Buffer) : t.Written b := by
  have honTape (m : Tape) (h : m.LikeBuffer b) := t.simulates_write m b h
  rcases Nat.lt_or_ge limit t.entries.length with hmany | hlimit
  · have hrun : t.write b = .error (.malformed (.tooManyEntries t.entries.length)) b :=
      write_tooManyEntries hmany
    refine ⟨iff_of_false ?_ (by omega), fun b' h => ?_,
      fun _ => ⟨hrun, toBytes_tooManyEntries hmany⟩,
      fun h => absurd hmany (Nat.not_lt.2 h), honTape⟩
    · rintro ⟨b', h⟩
      simp [hrun] at h
    · simp [hrun] at h
  · have hfew : ¬limit < t.entries.length := Nat.not_lt.2 hlimit
    rcases Nat.lt_or_ge b.bytes.size (b.offset + t.byteLength) with hshort | hroom
    · obtain ⟨b', new, hrun, hfit, hgains⟩ := write_outOfBounds hlimit hshort
      refine ⟨iff_of_false ?_ (by omega), fun b'' h => ?_, fun h => absurd h hfew,
        fun _ e b'' h => ?_, honTape⟩
      · rintro ⟨b'', h⟩
        simp [hrun] at h
      · simp [hrun] at h
      · obtain ⟨rfl, rfl⟩ := EStateM.Result.error.inj (hrun.symm.trans h)
        exact ⟨rfl, toBytes_ok hlimit, new, hfit, hgains⟩
    · have hrun := write_ok hlimit hroom
      refine ⟨iff_of_true ⟨_, hrun⟩ ⟨hlimit, hroom⟩, fun b' h => ?_, fun h => absurd h hfew,
        fun _ e b' h => ?_, honTape⟩
      · obtain ⟨-, rfl⟩ := EStateM.Result.ok.inj (hrun.symm.trans h)
        rw [← length_pack_words] at hroom ⊢
        exact ⟨toBytes_ok hlimit, Buffer.gains_overwrite (.inr hroom), rfl⟩
      · simp [hrun] at h

end CodeTable

/-- Each kind of table is written into a buffer whole or as far as there is room, wherever the
buffer stands. -/
theorem codeTables_written (b : Buffer) :
    (∀ t : CodeTable LineNumber, t.Written b) ∧ (∀ t : CodeTable LocalVariable, t.Written b) ∧
      ∀ t : CodeTable ProtectedRange, t.Written b :=
  ⟨fun t => t.written b, fun t => t.written b, fun t => t.written b⟩

/-- Of a table with one entry, the count and the start fit behind the first of five bytes. -/
example : (⟨[⟨0, 7⟩]⟩ : CodeTable LineNumber).write ⟨#[9, 9, 9, 9, 9], 1⟩ =
    .error .outOfBounds ⟨#[9, 0, 1, 0, 0], 5⟩ := rfl

end MethodFlow
