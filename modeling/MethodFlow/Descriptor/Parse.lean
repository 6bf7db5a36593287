import MethodFlow.Descriptor.Basic
import MethodFlow.Fault

/-!
Reading descriptors. A reader takes the bytes that are left of a text's encoding and returns a type
with the bytes behind it. Positions in messages count bytes.
-/

namespace MethodFlow.Descriptor

/-- A class name runs to the next semicolon. -/
def readName (bytes : List UInt8) : Except DescriptorFault (Descriptor × List UInt8) :=
  let name := bytes.takeWhile (Char.ofUInt8 · != ';')
  match bytes.dropWhile (Char.ofUInt8 · != ';') with
  | [] => .error .openName
  | _ :: rest =>
    if name.isEmpty then .error .emptyName
    else
      match String.fromUTF8? name.toByteArray with
      | some name => .ok (object name, rest)
      | none => .error .undecodableName

/-- Reads one field type, or `V` where `voidAllowed`. The whole text takes `size` bytes. -/
def readValue (size : Nat) (voidAllowed : Bool) :
    List UInt8 → Except DescriptorFault (Descriptor × List UInt8)
  | [] => .error .missingType
  | tag :: rest =>
    match Char.ofUInt8 tag with
    | '[' => do
      let (element, rest) ← readValue size false rest
      return (array element, rest)
    | 'L' => readName rest
    | c =>
      match Primitive.ofLetter? c with
      | some p => .ok (primitive p, rest)
      | none =>
        if c = 'V' && voidAllowed then .ok (void, rest)
        else .error (.badCharacter c (size - (rest.length + 1)))

theorem readName_shorter {bytes rest : List UInt8} {d : Descriptor}
    (h : readName bytes = .ok (d, rest)) : rest.length < bytes.length := by
  simp only [readName] at h
  have hs := (List.dropWhile_sublist (l := bytes) (Char.ofUInt8 · != ';')).length_le
  split at h
  · cases h
  · next hd =>
    rw [hd, List.length_cons] at hs
    split at h
    · cases h
    · split at h
      · cases h
        omega
      · cases h

theorem readValue_shorter {size : Nat} {bytes rest : List UInt8} {v : Bool} {d : Descriptor}
    (h : readValue size v bytes = .ok (d, rest)) : rest.length < bytes.length := by
  induction bytes generalizing v d rest with
  | nil => cases h
  | cons tag bytes ih =>
    rw [List.length_cons]
    unfold readValue at h
    split at h
    · cases hr : readValue size false bytes with
      | error e => rw [hr] at h; cases h
      | ok q =>
        rw [hr] at h
        cases h
        exact Nat.lt_succ_of_lt (ih hr)
    · exact Nat.lt_succ_of_lt (readName_shorter h)
    · split at h
      · cases h
        exact Nat.lt_succ_self _
      · split at h
        · cases h
          exact Nat.lt_succ_self _
        · cases h

/-- Reads field types up to the closing parenthesis. -/
def readParams (size : Nat) (bytes : List UInt8) :
    Except DescriptorFault (List Descriptor × List UInt8) :=
  match bytes with
  | [] => .error .openParameters
  | tag :: rest =>
    if Char.ofUInt8 tag = ')' then .ok ([], rest)
    else
      match h : readValue size false (tag :: rest) with
      | .error e => .error e
      | .ok (d, rest') =>
        have := readValue_shorter h
        match readParams size rest' with
        | .error e => .error e
        | .ok (ds, rest'') => .ok (d :: ds, rest'')
termination_by bytes.length
decreasing_by exact this

def readMethod (size : Nat) (bytes : List UInt8) :
    Except DescriptorFault (Descriptor × List UInt8) := do
  let (params, rest) ← readParams size bytes
  let (result, rest) ← readValue size true rest
  return (method params result, rest)

def readStart (size : Nat) : List UInt8 → Except DescriptorFault (Descriptor × List UInt8)
  | [] => readValue size true []
  | tag :: rest =>
    if Char.ofUInt8 tag = '(' then readMethod size rest else readValue size true (tag :: rest)

def readWhole (text : String) : Except DescriptorFault Descriptor := do
  let bytes := text.toUTF8.data.toList
  let (d, rest) ← readStart bytes.length bytes
  if rest.isEmpty then return d
  else throw (.trailing text (bytes.length - rest.length))

def parse (text : String) : Except Fault Descriptor :=
  (readWhole text).mapError fun fault => .malformed (.descriptor fault)

end MethodFlow.Descriptor
