import Mathlib.Data.List.Basic
import Mathlib.Data.Char

/-!
Texts as bytes. A byte below 128 stands for itself wherever it occurs in an encoding, so that what
is found by such bytes is found at the boundaries of characters.
-/

namespace MethodFlow

def encoded (cs : List Char) : List UInt8 := cs.flatMap String.utf8EncodeChar

variable {c : Char} {b : UInt8} {cs xs : List Char} {bytes rest : List UInt8} {s : String}

@[simp] theorem encoded_nil : encoded [] = [] := rfl

@[simp] theorem encoded_append : encoded (cs ++ xs) = encoded cs ++ encoded xs :=
  List.flatMap_append

theorem encoded_cons : encoded (c :: cs) = String.utf8EncodeChar c ++ encoded cs := rfl

theorem encoded_eq_nil : encoded cs = [] ↔ cs = [] := by
  cases cs with
  | nil => simp
  | cons c cs => simp [encoded_cons, String.utf8EncodeChar_ne_nil]

theorem val_ofUInt8 (b : UInt8) : (Char.ofUInt8 b).val.toNat = b.toNat := UInt8.toNat_toUInt32 b

theorem eq_ofUInt8_of_mem (hb : b ∈ String.utf8EncodeChar c) (h : b.toNat < 128) :
    c = Char.ofUInt8 b := by
  revert hb
  fun_cases String.utf8EncodeChar c with
  | case1 v hv =>
    intro hb
    obtain rfl := List.mem_singleton.1 hb
    have hlt : v < 256 := by omega
    refine Char.ext (UInt32.toNat_inj.1 ?_)
    rw [val_ofUInt8, UInt8.toNat_ofNat']
    exact (Nat.mod_eq_of_lt hlt).symm
  | case2 v =>
    intro hb
    simp only [List.mem_cons, List.not_mem_nil, or_false] at hb
    rcases hb with rfl | rfl <;> simp [UInt8.toNat_ofNat'] at h <;> omega
  | case3 v =>
    intro hb
    simp only [List.mem_cons, List.not_mem_nil, or_false] at hb
    rcases hb with rfl | rfl | rfl <;> simp [UInt8.toNat_ofNat'] at h <;> omega
  | case4 v =>
    intro hb
    simp only [List.mem_cons, List.not_mem_nil, or_false] at hb
    rcases hb with rfl | rfl | rfl | rfl <;> simp [UInt8.toNat_ofNat'] at h <;> omega

theorem encoded_cons_ofUInt8 (h : Char.ofUInt8 b = c) (hc : c.val.toNat < 128) (cs : List Char) :
    encoded (c :: cs) = b :: encoded cs := by
  subst h
  rw [val_ofUInt8] at hc
  have hone : String.utf8EncodeChar (Char.ofUInt8 b) = [b] := by
    rw [String.utf8EncodeChar]
    simp only [val_ofUInt8]
    rw [if_pos (by omega), UInt8.ofNat_toNat]
  rw [encoded_cons, hone, List.singleton_append]

theorem exists_ofUInt8 (hc : c.val.toNat < 128) : ∃ b, Char.ofUInt8 b = c := by
  have hone : String.utf8EncodeChar c = [UInt8.ofNat c.val.toNat] := if_pos (by omega)
  have hlow : (UInt8.ofNat c.val.toNat).toNat < 128 := by
    rw [UInt8.toNat_ofNat']
    omega
  exact ⟨_, (eq_ofUInt8_of_mem (by simp [hone]) hlow).symm⟩

theorem bytes_eq_encoded (s : String) : s.toUTF8.data.toList = encoded s.toList := by
  rw [String.toUTF8_eq_toByteArray, ← String.utf8Encode_toList]
  simp [encoded, List.utf8Encode]

theorem fromUTF8?_encoded (cs : List Char) :
    String.fromUTF8? (encoded cs).toByteArray = some (String.ofList cs) := by
  have hbytes : (encoded cs).toByteArray = cs.utf8Encode := rfl
  rw [hbytes, String.fromUTF8?, dif_pos ByteArray.isValidUTF8_utf8Encode]
  rfl

theorem eq_encoded_of_fromUTF8? (h : String.fromUTF8? bytes.toByteArray = some s) :
    bytes = encoded s.toList := by
  unfold String.fromUTF8? at h
  split at h
  · cases h
    rw [← bytes_eq_encoded]
    simp [String.fromUTF8]
  · simp at h

theorem exists_of_encoded_eq_append (h : encoded cs = encoded xs ++ rest) :
    ∃ more, cs = xs ++ more ∧ rest = encoded more := by
  have hfront : xs <+: cs := by
    refine List.isPrefix_of_utf8Encode_append_eq_utf8Encode rest.toByteArray ?_
    have hbytes := congrArg List.toByteArray h
    simpa [encoded, List.utf8Encode] using hbytes.symm
  obtain ⟨more, rfl⟩ := hfront
  exact ⟨more, rfl, by simpa using h.symm⟩

/-- A byte below 128 at the front of an encoding is the character at the front of the text. -/
theorem exists_of_encoded_eq_cons (h : encoded cs = b :: rest) (hb : Char.ofUInt8 b = c)
    (hc : c.val.toNat < 128) : ∃ more, cs = c :: more ∧ rest = encoded more := by
  have hfront : encoded cs = encoded [c] ++ rest := by
    rw [h, encoded_cons_ofUInt8 hb hc, encoded_nil, List.singleton_append]
  exact exists_of_encoded_eq_append hfront

theorem ofUInt8_ne_of_mem_encoded (hb : b ∈ encoded cs) (hc : c.val.toNat < 128) (h : c ∉ cs) :
    Char.ofUInt8 b ≠ c := by
  rintro rfl
  obtain ⟨c', hc', hb⟩ := List.mem_flatMap.1 hb
  rw [val_ofUInt8] at hc
  exact h (eq_ofUInt8_of_mem hb hc ▸ hc')

theorem takeWhile_encoded (hc : c.val.toNat < 128) (cs : List Char) :
    (encoded cs).takeWhile (Char.ofUInt8 · != c) = encoded (cs.takeWhile (· != c)) := by
  induction cs with
  | nil => rfl
  | cons c' cs ih =>
    by_cases he : c' = c
    · subst he
      obtain ⟨b, hb⟩ := exists_ofUInt8 hc
      rw [encoded_cons_ofUInt8 hb hc]
      simp [hb]
    · have hall : ∀ b ∈ String.utf8EncodeChar c', (Char.ofUInt8 b != c) = true := fun b hb => by
        have hb : b ∈ encoded [c'] := by simpa [encoded] using hb
        simpa using ofUInt8_ne_of_mem_encoded hb hc (by simpa using Ne.symm he)
      rw [encoded_cons, List.takeWhile_append_of_pos hall, ih,
        List.takeWhile_cons_of_pos (by simpa using he), encoded_cons]

end MethodFlow
