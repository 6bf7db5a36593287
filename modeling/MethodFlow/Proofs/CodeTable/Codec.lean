import MethodFlow.CodeTable.LineNumber
import MethodFlow.CodeTable.LocalVariable
import MethodFlow.CodeTable.ProtectedRange
import MethodFlow.Proofs.Bytes.Words
import Mathlib.Algebra.GroupWithZero.Nat

/-!
Reading and writing of tables undo each other. A table is read exactly where a count stands with
that many whole entries after it, each of which means something. The bytes that were read are those
that the table is written as. Tables that are written one after another are read back one after
another, whatever their kinds.
-/

namespace MethodFlow

open Bytes

/-- Entries that are read exactly where they are written. -/
class LawfulEntry (α : Type) [TableEntry α] where
  /-- The entry means something. -/
  Valid : α → Prop
  words_injective : Function.Injective (TableEntry.words (α := α))
  /-- Any words are those of an entry, if there are enough of them. -/
  exists_words : ∀ ws, ws.length = TableEntry.wordCount α → ∃ e : α, TableEntry.words e = ws
  read_ok : ∀ {c c' : Cursor} {e : α},
    TableEntry.read c = .ok e c' ↔ Valid e ∧ c.Reads (pack (TableEntry.words e)) c'

namespace CodeTable

section starts

variable (α : Type) [TableEntry α]

def entryLength : Nat := 2 * TableEntry.wordCount α

def announced (bytes : List UInt8) : Nat := ofBigEndian (bytes.take 2)

/-- The words at the place of entry `i` in a row of entries. -/
def wordsAt (bytes : List UInt8) (i : Nat) : List UInt16 :=
  wordsOf ((bytes.drop (i * entryLength α)).take (entryLength α))

variable {α}

/-- The bytes start with a count of two bytes and that many whole entries, all of them valid. -/
structure Starts (valid : α → Prop) (bytes : List UInt8) : Prop where
  counted : 2 ≤ bytes.length
  whole : 2 + announced bytes * entryLength α ≤ bytes.length
  valid : ∀ i < announced bytes, ∀ e : α, TableEntry.words e = wordsAt α (bytes.drop 2) i → valid e

/-- Reading and writing tables whose entries are `valid` undo each other. -/
structure Faithful (valid : α → Prop) : Prop where
  reads : ∀ c : Cursor, (∃ (t : CodeTable α) (c' : Cursor), read c = .ok t c') ↔ Starts valid c.rest
  consumes : ∀ (c c' : Cursor) (t : CodeTable α), read c = .ok t c' →
    c'.bytes = c.bytes ∧ c'.position = c.position + t.byteLength ∧
      t.toBytes = .ok (c.bytes.extract c.position c'.position)
  reads_back : ∀ (t : CodeTable α) (b : Buffer), t.entries.length ≤ limit →
    (∀ e ∈ t.entries, valid e) → b.offset + t.byteLength ≤ b.bytes.size →
    Edit.Yields t.write b fun _ b' =>
      b'.offset = b.offset + t.byteLength ∧ b'.bytes.size = b.bytes.size ∧
        ∀ c : Cursor, c.bytes = b'.bytes → c.position = b.offset →
          Edit.Yields read c fun t' c' => t' = t ∧ c'.bytes = c.bytes ∧ c'.position = b'.offset

end starts

variable {α : Type} [TableEntry α]

@[simp] theorem length_flatMap_words (es : List α) :
    (es.flatMap TableEntry.words).length = es.length * TableEntry.wordCount α := by
  induction es with
  | nil => simp
  | cons e es ih => simp [ih, TableEntry.length_words, Nat.add_mul, Nat.add_comm]

@[simp] theorem length_pack_words (t : CodeTable α) : (pack t.words).length = t.byteLength := by
  simp only [length_pack, words, byteLength, List.length_cons, length_flatMap_words]
  rw [Nat.mul_add, Nat.mul_left_comm, Nat.add_comm]

theorem write_ok {t : CodeTable α} {b : Buffer} (hlimit : t.entries.length ≤ limit)
    (hroom : b.offset + t.byteLength ≤ b.bytes.size) :
    t.write b =
      .ok () ⟨Buffer.overwrite b.bytes b.offset (pack t.words), b.offset + t.byteLength⟩ := by
  rw [← length_pack_words, length_pack] at hroom ⊢
  rw [write, Edit.bind_ok]
  exact ⟨(), b, Edit.guard_ok.2 ⟨by simpa using hlimit, rfl⟩, Buffer.forM_writeWord hroom⟩

theorem toBytes_ok {t : CodeTable α} (hlimit : t.entries.length ≤ limit) :
    t.toBytes = .ok (pack t.words).toArray := by
  have hroom : (Buffer.zeros t.byteLength).offset + t.byteLength ≤
      (Buffer.zeros t.byteLength).bytes.size := by simp [Buffer.zeros]
  rw [toBytes, write_ok hlimit hroom]
  refine congrArg _ (Array.toList_inj.1 ?_)
  rw [Buffer.toList_overwrite _ _ _ (by rwa [length_pack_words]), length_pack_words]
  simp [Buffer.zeros]

variable [LawfulEntry α] {c c' : Cursor}

theorem readEntries_ok {n : Nat} {es : List α} : readEntries n c = .ok es c' ↔
    es.length = n ∧ (∀ e ∈ es, LawfulEntry.Valid e) ∧
      c.Reads (pack (es.flatMap TableEntry.words)) c' := by
  induction n generalizing c c' es with
  | zero =>
    rw [readEntries, Edit.pure_ok]
    constructor
    · rintro ⟨rfl, rfl⟩
      simp
    · rintro ⟨hlength, -, h⟩
      obtain rfl := List.length_eq_zero_iff.1 hlength
      exact ⟨rfl, Cursor.reads_nil.1 h⟩
  | succ n ih =>
    simp only [readEntries, Edit.bind_ok, Edit.pure_ok, LawfulEntry.read_ok, ih]
    constructor
    · rintro ⟨e, m, ⟨he, hm⟩, es, _, ⟨rfl, hes, h⟩, rfl, rfl⟩
      exact ⟨rfl, by simpa using ⟨he, hes⟩, by simpa using hm.trans h⟩
    · rintro ⟨hlength, hes, h⟩
      obtain ⟨e, es, rfl⟩ := List.exists_cons_of_length_eq_add_one hlength
      rw [List.flatMap_cons, pack_append, Cursor.reads_append] at h
      obtain ⟨m, hm, h⟩ := h
      exact ⟨e, m, ⟨hes e (by simp), hm⟩, es, c',
        ⟨by simpa using hlength, fun e' he' => hes e' (by simp [he']), h⟩, rfl, rfl⟩

/-- A table is read exactly where its written form stands. -/
theorem read_ok {t : CodeTable α} : read c = .ok t c' ↔
    t.entries.length ≤ limit ∧ (∀ e ∈ t.entries, LawfulEntry.Valid e) ∧
      c.Reads (pack t.words) c' := by
  simp only [read, Edit.bind_ok, Edit.pure_ok, Cursor.readWord_ok, readEntries_ok]
  constructor
  · rintro ⟨count, m, hm, es, _, ⟨hlength, hes, h⟩, rfl, rfl⟩
    have hcount : UInt16.ofNat es.length = count := by rw [hlength, UInt16.ofNat_toNat]
    have hlimit : count.toNat < 65536 := count.toNat_lt
    refine ⟨by simp only [limit, hlength]; omega, hes, ?_⟩
    rw [words, Cursor.reads_cons]
    exact ⟨m, by rwa [hcount], h⟩
  · rintro ⟨hlimit, hes, h⟩
    rw [limit] at hlimit
    rw [words, Cursor.reads_cons] at h
    obtain ⟨m, hm, h⟩ := h
    have hcount : (UInt16.ofNat t.entries.length).toNat = t.entries.length :=
      UInt16.toNat_ofNat_of_lt' (Nat.lt_succ_of_le hlimit)
    exact ⟨_, m, hm, t.entries, c', ⟨hcount.symm, hes, h⟩, rfl, rfl⟩

/-- A written table is read back by a cursor that starts where it was written. -/
theorem read_of_written {t : CodeTable α} (hlimit : t.entries.length ≤ limit)
    (hvalid : ∀ e ∈ t.entries, LawfulEntry.Valid e) (hstart : pack t.words <+: c.rest) :
    Edit.Yields read c fun t' c' => t' = t ∧ c.Reads (pack t.words) c' := by
  obtain ⟨c', h⟩ := Cursor.exists_reads hstart
  exact ⟨t, c', read_ok.2 ⟨hlimit, hvalid, h⟩, rfl, h⟩

theorem exists_readEntry : (∃ (e : α) (c' : Cursor), TableEntry.read c = .ok e c') ↔
    entryLength α ≤ c.rest.length ∧
      ∀ e : α, TableEntry.words e = wordsOf (c.rest.take (entryLength α)) →
        LawfulEntry.Valid e := by
  simp only [LawfulEntry.read_ok]
  constructor
  · rintro ⟨e, c', hvalid, h⟩
    have hlength : (pack (TableEntry.words e)).length = entryLength α := by
      rw [length_pack, TableEntry.length_words, entryLength]
    refine ⟨hlength ▸ h.isPrefix.length_le, fun e' he' => ?_⟩
    rw [h.2, ← hlength, List.take_left, wordsOf_pack] at he'
    exact LawfulEntry.words_injective he' ▸ hvalid
  · rintro ⟨hlength, hvalid⟩
    have htake : (c.rest.take (entryLength α)).length = 2 * TableEntry.wordCount α :=
      List.length_take_of_le hlength
    have hpack := pack_wordsOf _ _ htake
    have hwords : (wordsOf (c.rest.take (entryLength α))).length = TableEntry.wordCount α := by
      have := congrArg List.length hpack
      rw [length_pack, htake] at this
      omega
    obtain ⟨e, he⟩ := LawfulEntry.exists_words (α := α) _ hwords
    obtain ⟨c', h⟩ := Cursor.exists_reads (List.take_prefix (entryLength α) c.rest)
    exact ⟨e, c', hvalid e he, by rwa [he, hpack]⟩

omit [LawfulEntry α] in
theorem wordsAt_drop (bytes : List UInt8) (i : Nat) :
    wordsAt α (bytes.drop (entryLength α)) i = wordsAt α bytes (i + 1) := by
  rw [wordsAt, wordsAt, List.drop_drop, Nat.add_mul, Nat.one_mul, Nat.add_comm]

theorem rest_of_readEntry {e : α} (h : TableEntry.read c = .ok e c') :
    c'.rest = c.rest.drop (entryLength α) := by
  have hrest := (LawfulEntry.read_ok.1 h).2.2
  rw [hrest, List.drop_left' (by rw [length_pack, TableEntry.length_words, entryLength])]

omit [LawfulEntry α] in
theorem exists_readEntries_succ {n : Nat} :
    (∃ (es : List α) (c' : Cursor), readEntries (n + 1) c = .ok es c') ↔
      ∃ (e : α) (m : Cursor), TableEntry.read c = .ok e m ∧
        ∃ (es : List α) (c' : Cursor), readEntries n m = .ok es c' := by
  simp only [readEntries, Edit.bind_ok, Edit.pure_ok]
  constructor
  · rintro ⟨_, c', e, m, he, es, _, hes, rfl, rfl⟩
    exact ⟨e, m, he, es, _, hes⟩
  · rintro ⟨e, m, he, es, c', hes⟩
    exact ⟨e :: es, c', e, m, he, es, c', hes, rfl, rfl⟩

theorem exists_readEntries {n : Nat} :
    (∃ (es : List α) (c' : Cursor), readEntries n c = .ok es c') ↔
    n * entryLength α ≤ c.rest.length ∧
      ∀ i < n, ∀ e : α, TableEntry.words e = wordsAt α c.rest i → LawfulEntry.Valid e := by
  induction n generalizing c with
  | zero => simp [readEntries]
  | succ n ih =>
    rw [exists_readEntries_succ, Nat.add_mul, Nat.one_mul]
    constructor
    · rintro ⟨e, m, he, hes⟩
      obtain ⟨hlength, hvalid⟩ := ih.1 hes
      obtain ⟨hfirst, hvalid₀⟩ := exists_readEntry.1 ⟨e, m, he⟩
      rw [rest_of_readEntry he] at hlength hvalid
      rw [List.length_drop] at hlength
      refine ⟨by omega, fun i hi e' he' => ?_⟩
      cases i with
      | zero => exact hvalid₀ e' (by simpa [wordsAt] using he')
      | succ i => exact hvalid i (by omega) e' (by rwa [wordsAt_drop])
    · rintro ⟨hlength, hvalid⟩
      obtain ⟨e, m, he⟩ : ∃ (e : α) (m : Cursor), TableEntry.read c = .ok e m :=
        exists_readEntry.2 ⟨by omega,
          fun e' he' => hvalid 0 (by omega) e' (by simpa [wordsAt] using he')⟩
      refine ⟨e, m, he, ih.2 ?_⟩
      rw [rest_of_readEntry he, List.length_drop]
      exact ⟨by omega, fun i hi e' he' =>
        hvalid (i + 1) (by omega) e' (by rwa [wordsAt_drop] at he')⟩

theorem exists_read : (∃ (t : CodeTable α) (c' : Cursor), read c = .ok t c') ↔
    Starts (α := α) LawfulEntry.Valid c.rest := by
  have hstep : (∃ (t : CodeTable α) (c' : Cursor), read c = .ok t c') ↔
      ∃ (w : UInt16) (m : Cursor), Cursor.readWord c = .ok w m ∧
        ∃ (es : List α) (c' : Cursor), readEntries w.toNat m = .ok es c' := by
    simp only [read, Edit.bind_ok, Edit.pure_ok]
    constructor
    · rintro ⟨_, c', w, m, hw, es, _, hes, rfl, rfl⟩
      exact ⟨w, m, hw, es, _, hes⟩
    · rintro ⟨w, m, hw, es, c', hes⟩
      exact ⟨⟨es⟩, c', w, m, hw, es, c', hes, rfl, rfl⟩
  have hcount {w : UInt16} {m : Cursor} (h : c.Reads (pack [w]) m) :
      announced c.rest = w.toNat ∧ m.rest = c.rest.drop 2 := by
    have hlength : (pack [w]).length = 2 := by simp
    rw [announced, h.2, List.take_left' hlength, List.drop_left' hlength]
    refine ⟨?_, rfl⟩
    have hw : w.toNat < 65536 := w.toNat_lt
    simp [pack, ofBigEndian_toBigEndian, Nat.mod_eq_of_lt hw]
  rw [hstep]
  simp only [Cursor.readWord_ok, exists_readEntries]
  constructor
  · rintro ⟨w, m, hw, hlength, hvalid⟩
    obtain ⟨hannounced, hrest⟩ := hcount hw
    have htwo : 2 ≤ c.rest.length := by simpa using hw.isPrefix.length_le
    rw [hrest, ← hannounced] at hlength hvalid
    rw [List.length_drop] at hlength
    exact ⟨htwo, by omega, hvalid⟩
  · rintro ⟨htwo, hwhole, hvalid⟩
    have hlength : (c.rest.take 2).length = 2 := List.length_take_of_le htwo
    obtain ⟨m, hm⟩ := Cursor.exists_reads (List.take_prefix 2 c.rest)
    rw [← pack_ofBigEndian hlength] at hm
    obtain ⟨hannounced, hrest⟩ := hcount hm
    refine ⟨_, m, hm, ?_⟩
    rw [← hannounced, hrest, List.length_drop]
    exact ⟨by omega, hvalid⟩

theorem faithful : Faithful (α := α) LawfulEntry.Valid where
  reads _ := exists_read
  consumes c c' t h := by
    obtain ⟨hlimit, -, h⟩ := read_ok.1 h
    refine ⟨h.1, by rw [h.position, length_pack_words], ?_⟩
    rw [toBytes_ok hlimit, h.bytes_eq]
  reads_back t b hlimit hvalid hroom := by
    refine ⟨(), _, write_ok hlimit hroom, rfl, Buffer.size_overwrite ..,
      fun c hbytes hposition => ?_⟩
    rw [← length_pack_words] at hroom
    refine (read_of_written hlimit hvalid (Buffer.isPrefix_rest hroom hbytes hposition)).mono ?_
    rintro t' c' ⟨rfl, h⟩
    exact ⟨rfl, h.1, by rw [h.position, hposition, length_pack_words]⟩

end CodeTable

section entries

instance : LawfulEntry LineNumber where
  Valid _ := True
  words_injective e e' h := by
    cases e
    cases e'
    simpa [TableEntry.words, LineNumber.words] using h
  exists_words ws h := match ws, h with
    | [start, line], _ => ⟨⟨start, line⟩, rfl⟩
  read_ok := by
    simp only [TableEntry.read, LineNumber.read, TableEntry.words, LineNumber.words, Edit.bind_ok,
      Edit.pure_ok, Cursor.readWord_ok, true_and, Cursor.reads_cons_cons]
    intro c c' e
    constructor
    · rintro ⟨_, m, h, _, _, h', rfl, rfl⟩
      exact ⟨m, h, h'⟩
    · rintro ⟨m, h, h'⟩
      exact ⟨_, m, h, _, _, h', rfl, rfl⟩

instance : LawfulEntry LocalVariable where
  Valid _ := True
  words_injective e e' h := by
    cases e
    cases e'
    simpa [TableEntry.words, LocalVariable.words] using h
  exists_words ws h := match ws, h with
    | [start, length, name, type, slot], _ => ⟨⟨start, length, name, type, slot⟩, rfl⟩
  read_ok := by
    simp only [TableEntry.read, LocalVariable.read, TableEntry.words,
      LocalVariable.words, Edit.bind_ok, Edit.pure_ok, Cursor.readWord_ok, true_and,
      Cursor.reads_cons_cons]
    intro c c' e
    constructor
    · rintro ⟨_, m₁, h₁, _, m₂, h₂, _, m₃, h₃, _, m₄, h₄, _, _, h₅, rfl, rfl⟩
      exact ⟨m₁, h₁, m₂, h₂, m₃, h₃, m₄, h₄, h₅⟩
    · rintro ⟨m₁, h₁, m₂, h₂, m₃, h₃, m₄, h₄, h₅⟩
      exact ⟨_, m₁, h₁, _, m₂, h₂, _, m₃, h₃, _, m₄, h₄, _, _, h₅, rfl, rfl⟩

instance : LawfulEntry ProtectedRange where
  Valid e := e.start < e.stop
  words_injective e e' h := by
    cases e
    cases e'
    simpa [TableEntry.words, ProtectedRange.words] using h
  exists_words ws h := match ws, h with
    | [start, stop, handler, caught], _ => ⟨⟨start, stop, handler, caught⟩, rfl⟩
  read_ok := by
    simp only [TableEntry.read, ProtectedRange.read, TableEntry.words,
      ProtectedRange.words, Edit.bind_ok, Edit.pure_ok, Edit.guard_ok, Cursor.readWord_ok,
      Cursor.reads_cons_cons, decide_eq_true_eq]
    intro c c' e
    constructor
    · rintro ⟨_, m₁, h₁, _, m₂, h₂, _, m₃, h₃, _, _, h₄, _, _, ⟨hrange, rfl⟩, rfl, rfl⟩
      exact ⟨hrange, m₁, h₁, m₂, h₂, m₃, h₃, h₄⟩
    · rintro ⟨hrange, m₁, h₁, m₂, h₂, m₃, h₃, h₄⟩
      exact ⟨_, m₁, h₁, _, m₂, h₂, _, m₃, h₃, _, _, h₄, (), _, ⟨hrange, rfl⟩, rfl, rfl⟩

end entries

inductive TableKind where
  | lines | locals | ranges
deriving DecidableEq

inductive AnyTable where
  | lines (t : CodeTable LineNumber)
  | locals (t : CodeTable LocalVariable)
  | ranges (t : CodeTable ProtectedRange)
deriving DecidableEq

namespace AnyTable

def kind : AnyTable → TableKind
  | lines _ => .lines
  | locals _ => .locals
  | ranges _ => .ranges

def byteLength : AnyTable → Nat
  | lines t => t.byteLength
  | locals t => t.byteLength
  | ranges t => t.byteLength

def words : AnyTable → List UInt16
  | lines t => t.words
  | locals t => t.words
  | ranges t => t.words

def write : AnyTable → Edit Buffer Unit
  | lines t => t.write
  | locals t => t.write
  | ranges t => t.write

def read : TableKind → Edit Cursor AnyTable
  | .lines => lines <$> CodeTable.read
  | .locals => locals <$> CodeTable.read
  | .ranges => ranges <$> CodeTable.read

/-- The entries can be counted in two bytes and mean something. -/
def Encodable : AnyTable → Prop
  | lines t => t.entries.length ≤ CodeTable.limit
  | locals t => t.entries.length ≤ CodeTable.limit
  | ranges t => t.entries.length ≤ CodeTable.limit ∧ ∀ e ∈ t.entries, e.start < e.stop

@[simp] theorem length_pack_words (t : AnyTable) : (pack t.words).length = t.byteLength := by
  cases t <;> exact CodeTable.length_pack_words _

theorem length_pack_flatMap (ts : List AnyTable) :
    (pack (ts.flatMap words)).length = (ts.map byteLength).sum := by
  induction ts with
  | nil => rfl
  | cons t ts ih =>
    simp only [List.flatMap_cons, pack_append, List.length_append, ih, List.map_cons,
      List.sum_cons, length_pack_words]

theorem write_ok {t : AnyTable} {b : Buffer} (h : t.Encodable)
    (hroom : b.offset + t.byteLength ≤ b.bytes.size) :
    t.write b =
      .ok () ⟨Buffer.overwrite b.bytes b.offset (pack t.words), b.offset + t.byteLength⟩ := by
  cases t with
  | lines t => exact CodeTable.write_ok h hroom
  | locals t => exact CodeTable.write_ok h hroom
  | ranges t => exact CodeTable.write_ok h.1 hroom

theorem read_ok {t : AnyTable} {c c' : Cursor} (h : t.Encodable)
    (hreads : c.Reads (pack t.words) c') :
    read t.kind c = .ok t c' := by
  cases t with
  | lines t => exact Edit.map_ok.2 ⟨t, CodeTable.read_ok.2 ⟨h, fun _ _ => trivial, hreads⟩, rfl⟩
  | locals t => exact Edit.map_ok.2 ⟨t, CodeTable.read_ok.2 ⟨h, fun _ _ => trivial, hreads⟩, rfl⟩
  | ranges t => exact Edit.map_ok.2 ⟨t, CodeTable.read_ok.2 ⟨h.1, h.2, hreads⟩, rfl⟩

theorem forM_write {ts : List AnyTable} {b : Buffer} (h : ∀ t ∈ ts, t.Encodable)
    (hroom : b.offset + (ts.map byteLength).sum ≤ b.bytes.size) :
    ts.forM write b = .ok ()
      ⟨Buffer.overwrite b.bytes b.offset (pack (ts.flatMap words)),
        b.offset + (ts.map byteLength).sum⟩ := by
  induction ts generalizing b with
  | nil => rfl
  | cons t ts ih =>
    rw [List.map_cons, List.sum_cons] at hroom ⊢
    rw [List.forM, Edit.bind_ok]
    refine ⟨(), _, write_ok (h t (by simp)) (by omega), ?_⟩
    rw [ih (fun t' ht' => h t' (by simp [ht'])) (by simp; omega), List.flatMap_cons, pack_append,
      Buffer.overwrite_append, length_pack_words, Nat.add_assoc]

theorem mapM_read {ts : List AnyTable} {c c' : Cursor} (h : ∀ t ∈ ts, t.Encodable)
    (hreads : c.Reads (pack (ts.flatMap words)) c') : (ts.map kind).mapM read c = .ok ts c' := by
  induction ts generalizing c with
  | nil => exact Edit.pure_ok.2 ⟨rfl, Cursor.reads_nil.1 hreads⟩
  | cons t ts ih =>
    rw [List.flatMap_cons, pack_append, Cursor.reads_append] at hreads
    obtain ⟨m, hm, hreads⟩ := hreads
    rw [List.map_cons, List.mapM_cons, Edit.bind_ok]
    refine ⟨t, m, read_ok (h t (by simp)) hm, Edit.bind_ok.2 ⟨ts, c', ?_, rfl⟩⟩
    exact ih (fun t' ht' => h t' (by simp [ht'])) hreads

/-- Tables that are written one after another are read back one after another. -/
theorem consecutive {ts : List AnyTable} {b : Buffer} (h : ∀ t ∈ ts, t.Encodable)
    (hroom : b.offset + (ts.map byteLength).sum ≤ b.bytes.size) :
    Edit.Yields (ts.forM write) b fun _ b' =>
      b'.offset = b.offset + (ts.map byteLength).sum ∧
        ∀ c : Cursor, c.bytes = b'.bytes → c.position = b.offset →
          Edit.Yields ((ts.map kind).mapM read) c fun ts' c' => ts' = ts ∧
            c'.position = b'.offset := by
  refine ⟨(), _, forM_write h hroom, rfl, fun c hbytes hposition => ?_⟩
  rw [← length_pack_flatMap] at hroom
  obtain ⟨c', hreads⟩ := Cursor.exists_reads (Buffer.isPrefix_rest hroom hbytes hposition)
  refine ⟨ts, c', mapM_read h hreads, rfl, ?_⟩
  rw [hreads.position, hposition, length_pack_flatMap]

end AnyTable

/-- For each kind of table, reading and writing undo each other, whatever stands around the table.
The tables of one row are read back in the order in which they were written. -/
theorem codeTables_roundtrip :
    CodeTable.Faithful (fun _ : LineNumber => True) ∧
    CodeTable.Faithful (fun _ : LocalVariable => True) ∧
    CodeTable.Faithful (fun e : ProtectedRange => e.start < e.stop) ∧
    ∀ (ts : List AnyTable) (b : Buffer), (∀ t ∈ ts, t.Encodable) →
      b.offset + (ts.map AnyTable.byteLength).sum ≤ b.bytes.size →
      Edit.Yields (ts.forM AnyTable.write) b fun _ b' =>
        b'.offset = b.offset + (ts.map AnyTable.byteLength).sum ∧
          ∀ c : Cursor, c.bytes = b'.bytes → c.position = b.offset →
            Edit.Yields ((ts.map AnyTable.kind).mapM AnyTable.read) c fun ts' c' =>
              ts' = ts ∧ c'.position = b'.offset :=
  ⟨CodeTable.faithful, CodeTable.faithful, CodeTable.faithful, fun _ _ => AnyTable.consecutive⟩

/-- Line numbers and a protected range, written at offset 3 of twenty bytes. -/
theorem codeTables_roundtrip_lines_ranges :
    Edit.Yields ([.lines ⟨[⟨0, 7⟩]⟩, .ranges ⟨[⟨0, 4, 4, 0⟩]⟩].forM AnyTable.write)
      ⟨Array.replicate 20 0, 3⟩ fun _ b' =>
        b'.offset = 19 ∧
          ∀ c : Cursor, c.bytes = b'.bytes → c.position = 3 →
            Edit.Yields ([.lines, .ranges].mapM AnyTable.read) c fun ts' c' =>
              ts' = [.lines ⟨[⟨0, 7⟩]⟩, .ranges ⟨[⟨0, 4, 4, 0⟩]⟩] ∧ c'.position = b'.offset :=
  codeTables_roundtrip.2.2.2 [.lines ⟨[⟨0, 7⟩]⟩, .ranges ⟨[⟨0, 4, 4, 0⟩]⟩] ⟨Array.replicate 20 0, 3⟩
    (by simp [AnyTable.Encodable, CodeTable.limit])
    (by simp [AnyTable.byteLength, CodeTable.byteLength, TableEntry.wordCount])

end MethodFlow
