import MethodFlow.Descriptor.Parse
import MethodFlow.Proofs.Descriptor.Encoding
import MethodFlow.Proofs.Edit
import Mathlib.Data.List.TakeWhile

/-!
The reader of descriptors takes the grammar, no more and no less. Each reader takes a text of its
grammar from the front of some bytes, whatever follows, and what it takes it took from there.
-/

namespace MethodFlow.Descriptor

variable {d : Descriptor} {text : List Char} {ds : List Descriptor}

/-! ### Spelling -/

theorem FieldSpelling.spell_eq (h : FieldSpelling text d) : IsField d ∧ d.spell = text := by
  induction h with
  | primitive p => exact ⟨.primitive p, rfl⟩
  | object hne hno => exact ⟨.object (by simpa using hne) (by simpa using hno), by simp⟩
  | array _ ih => exact ⟨.array ih.1, by rw [spell_array, ih.2]⟩

theorem IsField.spelling (h : IsField d) : FieldSpelling d.spell d := by
  induction h with
  | primitive p => exact .primitive p
  | object hne hno => simpa using FieldSpelling.object hne hno
  | array _ ih => exact .array ih

theorem ParamsSpelling.spellAll_eq (h : ParamsSpelling text ds) :
    (∀ d ∈ ds, IsField d) ∧ spellAll ds = text := by
  induction h with
  | nil => exact ⟨by simp, rfl⟩
  | cons hd _ ih =>
    obtain ⟨hfield, hspell⟩ := hd.spell_eq
    exact ⟨List.forall_mem_cons.2 ⟨hfield, ih.1⟩, by rw [spellAll_cons, hspell, ih.2]⟩

theorem paramsSpelling_spellAll (h : ∀ d ∈ ds, IsField d) : ParamsSpelling (spellAll ds) ds := by
  induction ds with
  | nil => exact .nil
  | cons d ds ih =>
    obtain ⟨hd, hds⟩ := List.forall_mem_cons.1 h
    exact .cons hd.spelling (ih hds)

theorem ResultSpelling.spell_eq (h : ResultSpelling text d) :
    (IsField d ∨ d = Descriptor.void) ∧ d.spell = text := by
  cases h with
  | field hd => exact ⟨.inl hd.spell_eq.1, hd.spell_eq.2⟩
  | void => exact ⟨.inr rfl, rfl⟩

theorem resultSpelling_spell (h : IsField d ∨ d = Descriptor.void) : ResultSpelling d.spell d := by
  rcases h with h | rfl
  · exact .field h.spelling
  · exact .void

/-- The text of a descriptor is how what it denotes is written. -/
theorem Spelling.spell_eq (h : Spelling text d) : IsDescriptor d ∧ d.spell = text := by
  cases h with
  | result hd =>
    obtain ⟨hfield | rfl, hspell⟩ := hd.spell_eq
    · exact ⟨.field hfield, hspell⟩
    · exact ⟨.void, hspell⟩
  | method hparams hresult =>
    obtain ⟨hfields, hall⟩ := hparams.spellAll_eq
    obtain ⟨hd, hspell⟩ := hresult.spell_eq
    exact ⟨.method hfields hd, by rw [spell_method, hall, hspell]⟩

/-- What a descriptor can denote is spelled by how it is written. -/
theorem IsDescriptor.spelling (h : IsDescriptor d) : Spelling d.spell d := by
  cases h with
  | field hd => exact .result (.field hd.spelling)
  | void => exact .result .void
  | method hparams hresult =>
    exact .method (paramsSpelling_spellAll hparams) (resultSpelling_spell hresult)

/-! ### Readers -/

/-- A reader takes a text of a grammar from the front of some bytes. Where the bytes encode a text,
every name in it can be decoded. -/
structure Reads {α : Type} (read : List UInt8 → Except DescriptorFault (α × List UInt8))
    (Spells : List Char → α → Prop) : Prop where
  sound : ∀ bytes a rest, read bytes = .ok (a, rest) →
    ∃ text, Spells text a ∧ bytes = encoded text ++ rest
  complete : ∀ text a rest, Spells text a → read (encoded text ++ rest) = .ok (a, rest)
  decodes : ∀ cs, read (encoded cs) ≠ .error .undecodableName

namespace Reads

variable {α β γ : Type} {read : List UInt8 → Except DescriptorFault (α × List UInt8)}
  {read' : List UInt8 → Except DescriptorFault (β × List UInt8)}
  {Spells : List Char → α → Prop} {Spells' : List Char → β → Prop}

theorem exists_rest (h : Reads read Spells) {cs : List Char} {a : α} {rest : List UInt8}
    (hread : read (encoded cs) = .ok (a, rest)) :
    ∃ text more, Spells text a ∧ cs = text ++ more ∧ rest = encoded more := by
  obtain ⟨text, hspells, hbytes⟩ := h.sound _ _ _ hread
  obtain ⟨more, hmore⟩ := exists_of_encoded_eq_append hbytes
  exact ⟨text, more, hspells, hmore⟩

theorem seq (h : Reads read Spells) (h' : Reads read' Spells') (f : α → β → γ) :
    Reads (fun bytes => do
      let (a, rest) ← read bytes
      let (b, rest) ← read' rest
      return (f a b, rest)) fun text c =>
        ∃ front a back b, Spells front a ∧ Spells' back b ∧ text = front ++ back ∧ c = f a b where
  sound bytes c rest hread := by
    simp only [Except.bind_eq_ok, Except.pure_eq_ok, Prod.mk.injEq] at hread
    obtain ⟨⟨a, rest₁⟩, ha, ⟨b, rest₂⟩, hb, rfl, rfl⟩ := hread
    obtain ⟨front, hfront, rfl⟩ := h.sound _ _ _ ha
    obtain ⟨back, hback, rfl⟩ := h'.sound _ _ _ hb
    exact ⟨front ++ back, ⟨front, a, back, b, hfront, hback, rfl, rfl⟩, by simp⟩
  complete text c rest hspells := by
    obtain ⟨front, a, back, b, hfront, hback, rfl, rfl⟩ := hspells
    simp only [Except.bind_eq_ok, Except.pure_eq_ok, encoded_append, List.append_assoc]
    exact ⟨_, h.complete front a _ hfront, _, h'.complete back b rest hback, rfl⟩
  decodes cs hread := by
    rcases Except.bind_eq_error.1 hread with herror | ⟨⟨a, rest⟩, ha, hread⟩
    · exact h.decodes cs herror
    obtain ⟨_, more, -, -, rfl⟩ := h.exists_rest ha
    rcases Except.bind_eq_error.1 hread with herror | ⟨_, -, hread⟩
    · exact h'.decodes more herror
    · simp [pure, Except.pure] at hread

end Reads

inductive NameSpelling : List Char → Descriptor → Prop where
  | intro {name : List Char} : name ≠ [] → ';' ∉ name →
      NameSpelling (name ++ [';']) (object (String.ofList name))

theorem readName_reads : Reads readName NameSpelling where
  sound bytes d rest h := by
    simp only [readName] at h
    split at h
    · simp at h
    next semicolon rest' hdrop =>
    split at h
    · simp at h
    next hname =>
    split at h
    next name hdecoded =>
      obtain ⟨rfl, rfl⟩ : object name = d ∧ rest' = rest := by simpa using h
      have htake := eq_encoded_of_fromUTF8? hdecoded
      have hstop : Char.ofUInt8 semicolon = ';' := by
        simpa [hdrop] using List.head?_dropWhile_not (Char.ofUInt8 · != ';') bytes
      have hne : name.toList ≠ [] := fun hnil => by simp [htake, hnil] at hname
      have hno : ';' ∉ name.toList := by
        intro hmem
        obtain ⟨before, after, hsplit⟩ := List.append_of_mem hmem
        have hbyte : semicolon ∈ bytes.takeWhile (Char.ofUInt8 · != ';') := by
          rw [htake, hsplit, encoded_append, encoded_cons_ofUInt8 hstop (by decide)]
          simp
        simpa [hstop] using List.mem_takeWhile_imp hbyte
      refine ⟨name.toList ++ [';'], by simpa using NameSpelling.intro hne hno, ?_⟩
      rw [← List.takeWhile_append_dropWhile (p := (Char.ofUInt8 · != ';')) (l := bytes),
        htake, hdrop, encoded_append, encoded_cons_ofUInt8 hstop (by decide)]
      simp
    · simp at h
  complete := by
    rintro _ _ rest ⟨hne, hno⟩
    next name =>
    obtain ⟨b, hb⟩ := exists_ofUInt8 (c := ';') (by decide)
    have hall : ∀ b ∈ encoded name, (Char.ofUInt8 b != ';') = true := fun b hb => by
      simpa using ofUInt8_ne_of_mem_encoded hb (by decide) hno
    have hbytes : encoded (name ++ [';']) ++ rest = encoded name ++ b :: rest := by
      simp [encoded_cons_ofUInt8 hb (by decide)]
    have htake : (encoded name ++ b :: rest).takeWhile (Char.ofUInt8 · != ';') = encoded name := by
      rw [List.takeWhile_append_of_pos hall, List.takeWhile_cons_of_neg (by simp [hb]),
        List.append_nil]
    have hdrop : (encoded name ++ b :: rest).dropWhile (Char.ofUInt8 · != ';') = b :: rest := by
      rw [List.dropWhile_append_of_pos hall, List.dropWhile_cons_of_neg (by simp [hb])]
    have hname : (encoded name).isEmpty = false := by simpa [encoded_eq_nil] using hne
    rw [hbytes]
    simp only [readName, htake, hdrop, hname, fromUTF8?_encoded]
    rfl
  decodes cs h := by
    simp only [readName, takeWhile_encoded (c := ';') (by decide), fromUTF8?_encoded] at h
    split at h
    · simp at h
    · split at h <;> simp at h

/-- The texts of field descriptors, and `V` where it is allowed. -/
inductive ValueSpelling (voidAllowed : Bool) : List Char → Descriptor → Prop where
  | field {text : List Char} {d : Descriptor} : FieldSpelling text d →
    ValueSpelling voidAllowed text d
  | void : voidAllowed = true → ValueSpelling voidAllowed ['V'] void

theorem valueSpelling_false : ValueSpelling false text d ↔ FieldSpelling text d := by
  constructor
  · rintro (h | h)
    · exact h
    · simp at h
  · exact .field

theorem valueSpelling_true : ValueSpelling true text d ↔ ResultSpelling text d := by
  constructor
  · rintro (h | -)
    · exact .field h
    · exact .void
  · rintro (h | -)
    · exact .field h
    · exact .void rfl

theorem letter_lt (p : Primitive) : p.letter.val.toNat < 128 := by cases p <;> decide

/-- A value starts with a character that closes and opens no parameters. -/
theorem ValueSpelling.exists_head {v : Bool} (h : ValueSpelling v text d) :
    ∃ c more, text = c :: more ∧ c.val.toNat < 128 ∧ c ≠ '(' ∧ c ≠ ')' := by
  rcases h with h | -
  · cases h with
    | primitive p =>
      exact ⟨p.letter, [], rfl, letter_lt p, by cases p <;> decide, by cases p <;> decide⟩
    | object => exact ⟨'L', _, rfl, by decide⟩
    | array => exact ⟨'[', _, rfl, by decide⟩
  · exact ⟨'V', [], rfl, by decide⟩

theorem readValue_cons {c : Char} {tag : UInt8} (h : Char.ofUInt8 tag = c) (size : Nat) (v : Bool)
    (rest : List UInt8) : readValue size v (tag :: rest) =
      if c = '[' then do
        let (element, rest) ← readValue size false rest
        return (array element, rest)
      else if c = 'L' then readName rest
      else match Primitive.ofLetter? c with
        | some p => .ok (primitive p, rest)
        | none => if c = 'V' && v then .ok (void, rest)
          else .error (.badCharacter c (size - (rest.length + 1))) := by
  subst h
  rw [readValue]
  split
  · next he => rw [if_pos he]
  · next he => rw [if_neg (by simp [he]), if_pos he]
  · next hopen hname => exact ((if_neg hopen).trans (if_neg hname)).symm

theorem readValue_of_fieldSpelling (size : Nat) (h : FieldSpelling text d) (v : Bool)
    (rest : List UInt8) :
    readValue size v (encoded text ++ rest) = .ok (d, rest) := by
  induction h generalizing v with
  | primitive p =>
    obtain ⟨tag, htag⟩ := exists_ofUInt8 (letter_lt p)
    have hp : p.letter ≠ '[' ∧ p.letter ≠ 'L' := by cases p <;> decide
    rw [encoded_cons_ofUInt8 htag (letter_lt p), List.cons_append, readValue_cons htag, if_neg hp.1,
      if_neg hp.2, Primitive.ofLetter?_letter]
    rfl
  | @object name hne hno =>
    obtain ⟨tag, htag⟩ := exists_ofUInt8 (c := 'L') (by decide)
    rw [List.cons_append, encoded_cons_ofUInt8 htag (by decide), List.cons_append,
      readValue_cons htag]
    exact readName_reads.complete _ _ rest (.intro hne hno)
  | @array text element _ ih =>
    obtain ⟨tag, htag⟩ := exists_ofUInt8 (c := '[') (by decide)
    rw [encoded_cons_ofUInt8 htag (by decide), List.cons_append, readValue_cons htag,
      if_pos rfl, ih]
    rfl

theorem readValue_reads (size : Nat) (v : Bool) : Reads (readValue size v) (ValueSpelling v) where
  sound bytes d rest h := by
    induction bytes generalizing v d rest with
    | nil => simp [readValue] at h
    | cons tag bytes ih =>
      rw [readValue_cons rfl] at h
      split at h
      · next htag =>
        simp only [Except.bind_eq_ok, Except.pure_eq_ok, Prod.mk.injEq] at h
        obtain ⟨⟨element, _⟩, helement, rfl, rfl⟩ := h
        obtain ⟨text, htext, rfl⟩ := ih false element _ helement
        refine ⟨'[' :: text, .field (.array (valueSpelling_false.1 htext)), ?_⟩
        rw [encoded_cons_ofUInt8 htag (by decide), List.cons_append]
      split at h
      · next htag =>
        obtain ⟨text, ⟨hne, hno⟩, rfl⟩ := readName_reads.sound bytes d rest h
        refine ⟨_, .field (.object hne hno), ?_⟩
        rw [List.cons_append, encoded_cons_ofUInt8 htag (by decide), List.cons_append]
      split at h
      · next p hp =>
        obtain ⟨rfl, rfl⟩ : primitive p = d ∧ bytes = rest := by simpa using h
        have htag := Primitive.letter_of_ofLetter? hp
        refine ⟨[p.letter], .field (.primitive p), ?_⟩
        rw [encoded_cons_ofUInt8 htag (letter_lt p), encoded_nil, List.singleton_append]
      split at h
      · next hvoid =>
        obtain ⟨rfl, rfl⟩ : Descriptor.void = d ∧ bytes = rest := by simpa using h
        obtain ⟨htag, hv⟩ : Char.ofUInt8 tag = 'V' ∧ v = true := by simpa using hvoid
        refine ⟨['V'], .void hv, ?_⟩
        rw [encoded_cons_ofUInt8 htag (by decide), encoded_nil, List.singleton_append]
      · simp at h
  complete text d rest h := by
    rcases h with h | hv
    · exact readValue_of_fieldSpelling size h v rest
    · obtain ⟨tag, htag⟩ := exists_ofUInt8 (c := 'V') (by decide)
      rw [encoded_cons_ofUInt8 htag (by decide), List.cons_append, readValue_cons htag, hv]
      rfl
  decodes cs h := by
    induction cs generalizing v with
    | nil => simp [readValue] at h
    | cons c cs ih =>
      cases hbytes : encoded (c :: cs) with
      | nil => simp [encoded_eq_nil] at hbytes
      | cons tag bytes =>
        rw [hbytes, readValue_cons rfl] at h
        split at h
        · next htag =>
          obtain ⟨more, hmore, rfl⟩ := exists_of_encoded_eq_cons hbytes htag (by decide)
          obtain ⟨rfl, rfl⟩ := List.cons.inj hmore
          rcases Except.bind_eq_error.1 h with herror | ⟨_, -, h⟩
          · exact ih false herror
          · simp [pure, Except.pure] at h
        split at h
        · next htag =>
          obtain ⟨more, -, rfl⟩ := exists_of_encoded_eq_cons hbytes htag (by decide)
          exact readName_reads.decodes more h
        split at h
        · simp at h
        · split at h <;> simp at h

theorem readParams_cons (size : Nat) (tag : UInt8) (rest : List UInt8) :
    readParams size (tag :: rest) =
      if Char.ofUInt8 tag = ')' then .ok ([], rest)
      else do
        let (d, rest) ← readValue size false (tag :: rest)
        let (ds, rest) ← readParams size rest
        return (d :: ds, rest) := by
  rw [readParams]
  split
  · rfl
  split
  · next hvalue => rw [hvalue]; rfl
  · next d rest' hvalue =>
    conv_rhs => rw [hvalue]
    cases hrest : readParams size rest' <;> simp [bind, Except.bind, pure, Except.pure, hrest]

inductive ClosedSpelling : List Char → List Descriptor → Prop where
  | intro {text : List Char} {ds : List Descriptor} : ParamsSpelling text ds →
      ClosedSpelling (text ++ [')']) ds

theorem readParams_reads (size : Nat) : Reads (readParams size) ClosedSpelling where
  sound bytes ds rest h := by
    induction hn : bytes.length using Nat.strong_induction_on generalizing bytes ds rest with
    | _ n ih =>
      cases bytes with
      | nil => simp [readParams] at h
      | cons tag bytes =>
        rw [readParams_cons] at h
        split at h
        · next htag =>
          obtain ⟨rfl, rfl⟩ : [] = ds ∧ bytes = rest := by simpa using h
          refine ⟨[] ++ [')'], ⟨.nil⟩, ?_⟩
          rw [List.nil_append, encoded_cons_ofUInt8 htag (by decide), encoded_nil,
            List.singleton_append]
        · simp only [Except.bind_eq_ok, Except.pure_eq_ok, Prod.mk.injEq] at h
          obtain ⟨⟨d, rest₁⟩, hd, ⟨ds, rest₂⟩, hds, rfl, rfl⟩ := h
          have hshorter := readValue_shorter hd
          obtain ⟨_, ⟨hparams⟩, rfl⟩ := ih _ (hn ▸ hshorter) rest₁ ds rest₂ hds rfl
          obtain ⟨front, hfront, hbytes⟩ := (readValue_reads size false).sound _ _ _ hd
          refine ⟨_, ⟨.cons (valueSpelling_false.1 hfront) hparams⟩, ?_⟩
          rw [hbytes]
          simp
  complete := by
    rintro _ _ rest ⟨h⟩
    induction h with
    | nil =>
      obtain ⟨tag, htag⟩ := exists_ofUInt8 (c := ')') (by decide)
      rw [List.nil_append, encoded_cons_ofUInt8 htag (by decide), List.cons_append, readParams_cons,
        if_pos htag]
      rfl
    | @cons text more d ds hd _ ih =>
      obtain ⟨c, tail, htext, hc, -, hclose⟩ := (valueSpelling_false.2 hd).exists_head
      obtain ⟨tag, htag⟩ := exists_ofUInt8 hc
      have hvalue := readValue_of_fieldSpelling size hd false (encoded (more ++ [')']) ++ rest)
      have hbytes : encoded text ++ (encoded (more ++ [')']) ++ rest) =
          tag :: (encoded tail ++ (encoded (more ++ [')']) ++ rest)) := by
        rw [htext, encoded_cons_ofUInt8 htag hc, List.cons_append]
      rw [List.append_assoc, encoded_append, List.append_assoc, hbytes, readParams_cons,
        if_neg (by rwa [htag]), ← hbytes, hvalue]
      show (do
        let (ds, rest) ← readParams size (encoded (more ++ [')']) ++ rest)
        return (d :: ds, rest)) = _
      rw [ih]
      rfl
  decodes cs h := by
    induction hn : cs.length using Nat.strong_induction_on generalizing cs with
    | _ n ih =>
      cases hbytes : encoded cs with
      | nil => simp [hbytes, readParams] at h
      | cons tag bytes =>
        rw [hbytes, readParams_cons, ← hbytes] at h
        split at h
        · simp at h
        rcases Except.bind_eq_error.1 h with herror | ⟨⟨d, _⟩, hd, hrest⟩
        · exact (readValue_reads size false).decodes cs herror
        obtain ⟨text, more, hvalue, rfl, rfl⟩ := (readValue_reads size false).exists_rest hd
        obtain ⟨_, _, rfl, -⟩ := hvalue.exists_head
        rcases Except.bind_eq_error.1 hrest with herror | ⟨_, -, hdone⟩
        · have hshorter : more.length < n := by
            rw [← hn, List.length_append, List.length_cons]
            omega
          exact ih more.length hshorter more herror rfl
        · simp [pure, Except.pure] at hdone

inductive MethodSpelling : List Char → Descriptor → Prop where
  | intro {params result : List Char} {ds : List Descriptor} {d : Descriptor} :
      ParamsSpelling params ds → ResultSpelling result d →
      MethodSpelling (params ++ ')' :: result) (method ds d)

theorem readMethod_reads (size : Nat) : Reads (readMethod size) MethodSpelling := by
  have hseq := (readParams_reads size).seq (readValue_reads size true) method
  refine ⟨fun bytes d rest h => ?_, ?_, hseq.decodes⟩
  · obtain ⟨text, ⟨_, ds, back, d, ⟨hparams⟩, hresult, rfl, rfl⟩, hbytes⟩ :=
      hseq.sound bytes d rest h
    exact ⟨_, ⟨hparams, valueSpelling_true.1 hresult⟩, by simpa using hbytes⟩
  · rintro _ _ rest ⟨hparams, hresult⟩
    exact hseq.complete _ _ rest ⟨_, _, _, _, ⟨hparams⟩, valueSpelling_true.2 hresult, by simp, rfl⟩

theorem readStart_reads (size : Nat) : Reads (readStart size) Spelling where
  sound bytes d rest h := by
    cases bytes with
    | nil => simp [readStart, readValue] at h
    | cons tag bytes =>
      rw [readStart] at h
      split at h
      · next htag =>
        obtain ⟨_, ⟨hparams, hresult⟩, rfl⟩ := (readMethod_reads size).sound bytes d rest h
        refine ⟨_, .method hparams hresult, ?_⟩
        rw [List.cons_append, encoded_cons_ofUInt8 htag (by decide), List.cons_append]
      · obtain ⟨text, hvalue, hbytes⟩ := (readValue_reads size true).sound _ d rest h
        exact ⟨text, .result (valueSpelling_true.1 hvalue), hbytes⟩
  complete := by
    rintro text d rest (h | ⟨hparams, hresult⟩)
    · have hvalue := valueSpelling_true.2 h
      obtain ⟨c, tail, htext, hc, hopen, -⟩ := hvalue.exists_head
      obtain ⟨tag, htag⟩ := exists_ofUInt8 hc
      have hread := (readValue_reads size true).complete text d rest hvalue
      rw [htext, encoded_cons_ofUInt8 htag hc, List.cons_append] at hread ⊢
      rw [readStart, if_neg (by rwa [htag]), hread]
    · obtain ⟨tag, htag⟩ := exists_ofUInt8 (c := '(') (by decide)
      rw [List.cons_append, encoded_cons_ofUInt8 htag (by decide), List.cons_append,
        readStart, if_pos htag]
      exact (readMethod_reads size).complete _ _ rest ⟨hparams, hresult⟩
  decodes cs h := by
    cases hbytes : encoded cs with
    | nil => simp [hbytes, readStart, readValue] at h
    | cons tag bytes =>
      rw [hbytes, readStart] at h
      split at h
      · next htag =>
        obtain ⟨more, -, rfl⟩ := exists_of_encoded_eq_cons hbytes htag (by decide)
        exact (readMethod_reads size).decodes more h
      · exact (readValue_reads size true).decodes cs (hbytes ▸ h)

theorem readWhole_ok {s : String} : readWhole s = .ok d ↔ Spelling s.toList d := by
  have hreads := readStart_reads (encoded s.toList).length
  simp only [readWhole, bytes_eq_encoded, Except.bind_eq_ok]
  constructor
  · rintro ⟨⟨d', rest⟩, hread, h⟩
    dsimp only at h
    split at h
    · next hempty =>
      obtain rfl := Except.pure_eq_ok.1 h
      obtain ⟨text, more, hspelling, htext, hmore⟩ := hreads.exists_rest hread
      obtain rfl : more = [] := encoded_eq_nil.1 (by simpa [hmore] using hempty)
      rwa [htext, List.append_nil]
    · simp at h
  · intro h
    refine ⟨(d, []), ?_, rfl⟩
    simpa using hreads.complete _ _ [] h

theorem readWhole_ne_undecodableName (s : String) : readWhole s ≠ .error .undecodableName := by
  intro h
  simp only [readWhole, bytes_eq_encoded] at h
  rcases Except.bind_eq_error.1 h with herror | ⟨⟨d, rest⟩, -, h⟩
  · exact (readStart_reads _).decodes _ herror
  · dsimp only at h
    split at h
    · simp [pure, Except.pure] at h
    · simp [throw, throwThe, MonadExceptOf.throw] at h

theorem parse_ok {s : String} : parse s = .ok d ↔ Spelling s.toList d := by
  rw [← readWhole_ok, parse]
  cases readWhole s <;> simp [Except.mapError]

/-- A text parses if and only if it is a descriptor, and what it parses to is written as the text
is. Other texts are malformed, though not because a name cannot be decoded. What a descriptor can
denote is what its written form parses to. -/
theorem parse_describes :
    (∀ s : String, (∀ d, parse s = .ok d ↔ Spelling s.toList d) ∧
      (∀ d, parse s = .ok d → IsDescriptor d ∧ toString d = s) ∧
      ∀ e, parse s = .error e → ∃ fault, e = .malformed (.descriptor fault) ∧
        fault ≠ .undecodableName) ∧
    ∀ d, IsDescriptor d → parse (toString d) = .ok d := by
  refine ⟨fun s => ⟨fun d => parse_ok, fun d h => ?_, fun e h => ?_⟩, fun d h => ?_⟩
  · obtain ⟨hd, hspell⟩ := (parse_ok.1 h).spell_eq
    refine ⟨hd, ?_⟩
    show String.ofList d.spell = s
    rw [hspell, String.ofList_toList]
  · cases hread : readWhole s with
    | ok d => simp [parse, hread, Except.mapError] at h
    | error fault =>
      obtain rfl : Fault.malformed (.descriptor fault) = e := by
        simpa [parse, hread, Except.mapError] using h
      exact ⟨fault, rfl, fun he => readWhole_ne_undecodableName s (he ▸ hread)⟩
  · have htext : (toString d).toList = d.spell := String.toList_ofList
    exact parse_ok.2 (htext ▸ h.spelling)

example : parse "([Ljava/Ü;J)V" =
    .ok (.method [.array (.object "java/Ü"), .primitive .long] .void) := by
  decide +kernel

end MethodFlow.Descriptor
