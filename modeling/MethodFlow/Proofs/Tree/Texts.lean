import MethodFlow.Proofs.Tree.Expressions
import MethodFlow.Tree.Render
import Mathlib

/-!
The text of an expression of ints can be read in one way only. A variable or a literal is a word,
which ends where a blank or a parenthesis follows, and an operation begins with a parenthesis, which
no word does.
-/

namespace MethodFlow

/-- The letters that locals and int literals are written with. -/
def isWordLetter (c : Char) : Bool := c.isDigit || c = '-' || c = 'l'

structure IsWord (w : List Char) : Prop where
  nonempty : w ≠ []
  letters : ∀ c ∈ w, isWordLetter c = true

/-- What may follow a word. -/
def Breaks (rest : List Char) : Prop := ∀ c ∈ rest.head?, isWordLetter c = false

theorem Breaks.cons {c : Char} (hc : isWordLetter c = false) (rest : List Char) :
    Breaks (c :: rest) := by
  simp [Breaks, hc]

namespace IsWord

variable {w w' rest rest' : List Char}

/-- A word ends at the first letter that is no part of one. -/
theorem takeWhile (hw : IsWord w) (hrest : Breaks rest) :
    (w ++ rest).takeWhile isWordLetter = w := by
  rw [List.takeWhile_append_of_pos hw.letters]
  cases rest with
  | nil => simp
  | cons c rest => simp [hrest c (by simp)]

theorem append_inj (hw : IsWord w) (hw' : IsWord w') (hrest : Breaks rest) (hrest' : Breaks rest')
    (h : w ++ rest = w' ++ rest') : w = w' ∧ rest = rest' := by
  have hword : w = w' := by rw [← hw.takeWhile hrest, h, hw'.takeWhile hrest']
  subst hword
  exact ⟨rfl, List.append_cancel_left h⟩

theorem ne_operation (hw : IsWord w) : w ++ rest ≠ '(' :: rest' := by
  cases w with
  | nil => exact absurd rfl hw.nonempty
  | cons c w =>
    intro h
    obtain ⟨rfl, -⟩ := List.cons.inj h
    exact absurd (hw.letters '(' (by simp)) (by decide)

end IsWord

theorem isDigit_of_mem_repr {n : Nat} {c : Char} (h : c ∈ n.repr.toList) : c.isDigit = true := by
  rw [Nat.repr_eq_ofList_toDigits, String.toList_ofList] at h
  exact Nat.isDigit_of_mem_toDigits (by omega) (by omega) h

theorem isDigit_or_minus_of_mem_repr {i : Int} {c : Char} (h : c ∈ i.repr.toList) :
    c.isDigit = true ∨ c = '-' := by
  rw [Int.repr_eq_if] at h
  split at h
  · exact .inl (isDigit_of_mem_repr h)
  · rw [String.toList_append, List.mem_append] at h
    rcases h with h | h
    · exact .inr (by simpa using h)
    · exact .inl (isDigit_of_mem_repr h)

theorem isWord_repr (i : Int) : IsWord i.repr.toList where
  nonempty := by
    intro hempty
    rw [Int.repr_eq_if] at hempty
    split at hempty <;> simp_all
  letters c hc := by
    rcases isDigit_or_minus_of_mem_repr hc with h | rfl
    · simp [isWordLetter, h]
    · rfl

namespace Expression

/-- An expression made of locals of type int that stand for no definition, int literals and
operators. -/
inductive OfInts : Expression → Prop
  | occurrence (i : UInt16) : OfInts (.occurrence (.ofLocal i) .int none)
  | literal (value : Int32) : OfInts (.literal (.int value))
  | binary (op : BinaryOp) {left right : Expression} : OfInts left → OfInts right →
      OfInts (.binary op .int left right)

/-- The letters of the text of an expression whose variables have no numbers. -/
def letters : Expression → List Char
  | occurrence var _ _ => (toString var).toList
  | literal value => value.text.toList
  | binary op _ left right =>
    '(' :: (left.letters ++ ' ' :: op.symbol :: ' ' :: (right.letters ++ [')']))
  | returnAddress => "<return address>".toList

theorem letters_ofLocal (i : UInt16) (type : Descriptor) (definition : Option NodeId) :
    (occurrence (.ofLocal i) type definition).letters = 'l' :: i.toNat.repr.toList := by
  show ("l" ++ i.toNat.repr).toList = _
  rw [String.toList_append]
  rfl

theorem letters_int (value : Int32) :
    (literal (.int value)).letters = value.toInt.repr.toList := rfl

theorem letters_binary (op : BinaryOp) (type : Descriptor) (left right : Expression) :
    (binary op type left right).letters =
      '(' :: (left.letters ++ ' ' :: op.symbol :: ' ' :: (right.letters ++ [')'])) := rfl

theorem isWord_ofLocal (i : UInt16) (type : Descriptor) (definition : Option NodeId) :
    IsWord (occurrence (.ofLocal i) type definition).letters := by
  rw [letters_ofLocal]
  refine ⟨by simp, fun c hc => ?_⟩
  rcases List.mem_cons.1 hc with rfl | hc
  · rfl
  · simp [isWordLetter, isDigit_of_mem_repr hc]

theorem isWord_int (value : Int32) : IsWord (literal (.int value)).letters := isWord_repr _

theorem letters_ofLocal_ne_int (i : UInt16) (type : Descriptor) (definition : Option NodeId)
    (value : Int32) :
    (occurrence (.ofLocal i) type definition).letters ≠ (literal (.int value)).letters := by
  intro h
  rw [letters_ofLocal, letters_int] at h
  have hmem : 'l' ∈ value.toInt.repr.toList := by simp [← h]
  rcases isDigit_or_minus_of_mem_repr hmem with hdigit | hminus
  · exact absurd hdigit (by decide)
  · exact absurd hminus (by decide)

namespace OfInts

variable {e e' : Expression} {rest rest' : List Char}

theorem definition_eq_none {var : Var} {type : Descriptor} {definition : Option NodeId}
    (h : (Expression.occurrence var type definition).OfInts) : definition = none := by
  cases h
  rfl

/-- A text tells what expression it begins with and where that ends. -/
theorem append_inj (h : e.OfInts) (h' : e'.OfInts) (hrest : Breaks rest) (hrest' : Breaks rest')
    (heq : e.letters ++ rest = e'.letters ++ rest') : e = e' ∧ rest = rest' := by
  induction h generalizing e' rest rest' with
  | occurrence i =>
    have hword := isWord_ofLocal i .int none
    cases h' with
    | occurrence j =>
      obtain ⟨hletters, hrests⟩ := hword.append_inj (isWord_ofLocal j .int none) hrest hrest' heq
      rw [letters_ofLocal, letters_ofLocal, List.cons.injEq] at hletters
      obtain rfl : i = j := UInt16.toNat_inj.1 (Nat.repr_inj.1 (String.toList_inj.1 hletters.2))
      exact ⟨rfl, hrests⟩
    | literal value =>
      obtain ⟨hletters, -⟩ := hword.append_inj (isWord_int value) hrest hrest' heq
      exact absurd hletters (letters_ofLocal_ne_int i .int none value)
    | binary op _ _ => exact absurd heq hword.ne_operation
  | literal value =>
    have hword := isWord_int value
    cases h' with
    | occurrence j =>
      obtain ⟨hletters, -⟩ := hword.append_inj (isWord_ofLocal j .int none) hrest hrest' heq
      exact absurd hletters.symm (letters_ofLocal_ne_int j .int none value)
    | literal value' =>
      obtain ⟨hletters, hrests⟩ := hword.append_inj (isWord_int value') hrest hrest' heq
      rw [letters_int, letters_int] at hletters
      obtain rfl : value = value' :=
        Int32.toInt_inj.1 (Int.repr_inj.1 (String.toList_inj.1 hletters))
      exact ⟨rfl, hrests⟩
    | binary op _ _ => exact absurd heq hword.ne_operation
  | binary op _ _ ihl ihr =>
    cases h' with
    | occurrence j => exact absurd heq.symm (isWord_ofLocal j .int none).ne_operation
    | literal value => exact absurd heq.symm (isWord_int value).ne_operation
    | binary op' hl hr =>
      have hblank (tail : List Char) : Breaks (' ' :: tail) := .cons rfl tail
      have hclose (tail : List Char) : Breaks (')' :: tail) := .cons rfl tail
      simp only [letters_binary, List.cons_append, List.append_assoc, List.cons.injEq,
        true_and] at heq
      obtain ⟨rfl, htail⟩ := ihl hl (hblank _) (hblank _) heq
      simp only [List.cons.injEq, true_and] at htail
      obtain ⟨hsymbol, hright⟩ := htail
      obtain rfl := BinaryOp.symbol_injective hsymbol
      obtain ⟨rfl, hrests⟩ := ihr hr (hclose _) (hclose _) hright
      simp only [List.nil_append, List.cons.injEq, true_and] at hrests
      exact ⟨rfl, hrests⟩

theorem letters_inj (h : e.OfInts) (h' : e'.OfInts) : e.letters = e'.letters ↔ e = e' := by
  constructor
  · intro heq
    have hnil : Breaks [] := by simp [Breaks]
    exact (h.append_inj h' hnil hnil (by simp [heq])).1
  · rintro rfl
    rfl

end OfInts

end Expression

namespace Tree

variable {t : Tree} {a b n : NodeId} {e e' : Expression} {limit : Nat}

theorem variableText_of_unlinked {o : Occurrence} (hn : t.node? n = some (.occurrence o))
    (hunlinked : o.definition n = none) (var : Var) : t.variableText n var = toString var := by
  have hdefinition : t.definitionOf n = .ok none := definitionOf_ok.2 ⟨o, hn, hunlinked⟩
  have hversion : t.versionOf n = .ok none := by simp [versionOf, hdefinition, bind, Except.bind]
  simp [variableText, hversion]

/-- The text of an expression of ints is that of what it spells. -/
theorem Spells.textTo (h : t.Spells n e) (he : e.OfInts) (hwithin : t.Within limit n) :
    (t.textTo limit n).toList = e.letters := by
  induction h generalizing limit with
  | @occurrence n o hn =>
    obtain ⟨rest, rfl⟩ := hwithin.exists_rest hn
    have hunlinked : o.definition n = none := he.definition_eq_none
    simp only [Tree.textTo, hn]
    rw [variableText_of_unlinked hn hunlinked]
    rfl
  | literal hn =>
    obtain ⟨rest, rfl⟩ := hwithin.exists_rest hn
    simp only [Tree.textTo, hn]
    rfl
  | returnAddress _ => cases he
  | @binary n op left right type e e' hn _ _ ihl ihr =>
    obtain ⟨rest, rfl, hleft, hright⟩ := hwithin.operands hn
    cases he with
    | binary _ hl hr =>
      have hsymbol : op.symbol.toString.toList = [op.symbol] := String.toList_singleton _
      simp only [Tree.textTo, hn, String.toList_append, ihl hl hleft, ihr hr hright, hsymbol]
      simp [Expression.letters_binary]

/-- Expressions of ints have the same text if and only if they are the same, however deep they are
and whatever their operators. -/
theorem text_eq_iff_same (ha : t.Spells a e) (hb : t.Spells b e') (he : e.OfInts)
    (he' : e'.OfInts) :
    t.text a = t.text b ↔ t.same a b = true := by
  have htexts : t.text a = t.text b ↔ e = e' := by
    rw [← String.toList_inj, ← he.letters_inj he']
    unfold text
    rw [ha.textTo he ha.whole.ends.within_size, hb.textTo he' hb.whole.ends.within_size]
  rw [htexts, same_iff]
  constructor
  · rintro rfl
    exact ⟨e, ha, hb⟩
  · rintro ⟨d, ha', hb'⟩
    rw [ha.unique ha', hb.unique hb']

/-- The same variable and literals are subtracted from each other, grouped to the left and then to
the right. -/
def regroup : List TreeEdit :=
  [.request (.newVariable (.ofLocal 1) .int), .request (.newLiteral (.int 2)),
    .request (.newBinary .sub ⟨0⟩ ⟨1⟩ .int), .request (.newLiteral (.int (-3))),
    .request (.newBinary .sub ⟨2⟩ ⟨3⟩ .int), .request (.newVariable (.ofLocal 1) .int),
    .request (.newLiteral (.int 2)), .request (.newLiteral (.int (-3))),
    .request (.newBinary .sub ⟨6⟩ ⟨7⟩ .int), .request (.newBinary .sub ⟨5⟩ ⟨8⟩ .int)]

theorem text_ne_of_regroup :
    ∃ e e', (Tree.empty.edits regroup).Spells ⟨4⟩ e ∧ (Tree.empty.edits regroup).Spells ⟨9⟩ e' ∧
      e.OfInts ∧ e'.OfInts ∧ (Tree.empty.edits regroup).text ⟨4⟩ ≠
        (Tree.empty.edits regroup).text ⟨9⟩ := by
  have hvar (n : NodeId) (hn : (Tree.empty.edits regroup).node? n =
      some (.occurrence { var := .ofLocal 1, type := .int })) :
      (Tree.empty.edits regroup).Spells n (.occurrence (.ofLocal 1) .int none) := .occurrence hn
  have hleft : (Tree.empty.edits regroup).Spells ⟨4⟩ (.binary .sub .int (.binary .sub .int
      (.occurrence (.ofLocal 1) .int none) (.literal (.int 2))) (.literal (.int (-3)))) := by
    have hinner : (Tree.empty.edits regroup).node? ⟨2⟩ = some (.binary .sub ⟨0⟩ ⟨1⟩ .int) := by
      decide +kernel
    have houter : (Tree.empty.edits regroup).node? ⟨4⟩ = some (.binary .sub ⟨2⟩ ⟨3⟩ .int) := by
      decide +kernel
    apply Spells.binary houter
    · exact .binary hinner (hvar ⟨0⟩ (by decide +kernel)) (.literal (by decide +kernel))
    · exact .literal (by decide +kernel)
  have hright : (Tree.empty.edits regroup).Spells ⟨9⟩ (.binary .sub .int
      (.occurrence (.ofLocal 1) .int none)
      (.binary .sub .int (.literal (.int 2)) (.literal (.int (-3))))) := by
    have hinner : (Tree.empty.edits regroup).node? ⟨8⟩ = some (.binary .sub ⟨6⟩ ⟨7⟩ .int) := by
      decide +kernel
    have houter : (Tree.empty.edits regroup).node? ⟨9⟩ = some (.binary .sub ⟨5⟩ ⟨8⟩ .int) := by
      decide +kernel
    apply Spells.binary houter
    · exact hvar ⟨5⟩ (by decide +kernel)
    · exact .binary hinner (.literal (by decide +kernel)) (.literal (by decide +kernel))
  have hints := Expression.OfInts.binary .sub (.binary .sub (.occurrence 1) (.literal 2))
    (.literal (-3))
  have hints' := Expression.OfInts.binary .sub (.occurrence 1)
    (.binary .sub (.literal 2) (.literal (-3)))
  refine ⟨_, _, hleft, hright, hints, hints', fun htext => ?_⟩
  have hsame := (text_eq_iff_same hleft hright hints hints').1 htext
  exact absurd hsame (by decide +kernel)

end Tree

end MethodFlow
