/-!
The types of the virtual machine and their written form. A descriptor spells a type compactly: one
letter for a primitive, `L...;` for a class, `[` before an element type, and the parameters of a
method in parentheses before its result.

Two types have no descriptor: the address that a subroutine call leaves on the stack, and the type
of the null constant. They are written in angle brackets.

The grammar says the same by relations: `IsField` and `IsDescriptor` say which types a descriptor
can spell, `FieldSpelling` and `Spelling` which texts are descriptors and what they denote.
-/

namespace MethodFlow

inductive Primitive where
  | boolean
  | byte
  | char
  | short
  | int
  | long
  | float
  | double
deriving DecidableEq

namespace Primitive

def letter : Primitive → Char
  | boolean => 'Z'
  | byte => 'B'
  | char => 'C'
  | short => 'S'
  | int => 'I'
  | long => 'J'
  | float => 'F'
  | double => 'D'

/-- Long and double take two slots. -/
def isWide : Primitive → Bool
  | long | double => true
  | _ => false

def ofLetter? : Char → Option Primitive
  | 'Z' => some boolean
  | 'B' => some byte
  | 'C' => some char
  | 'S' => some short
  | 'I' => some int
  | 'J' => some long
  | 'F' => some float
  | 'D' => some double
  | _ => none

@[simp] theorem ofLetter?_letter (p : Primitive) : ofLetter? p.letter = some p := by
  cases p <;> rfl

theorem letter_of_ofLetter? {c : Char} {p : Primitive} (h : ofLetter? c = some p) :
    c = p.letter := by
  unfold ofLetter? at h
  split at h <;> cases h <;> rfl

end Primitive

inductive Descriptor where
  | primitive (p : Primitive)
  | void
  | object (name : String)
  | array (element : Descriptor)
  | method (params : List Descriptor) (result : Descriptor)
  | returnAddress
  | nullType

namespace Descriptor

def int : Descriptor := primitive .int

mutual

def decEq : (a b : Descriptor) → Decidable (a = b)
  | primitive p, b =>
    match b with
    | primitive q => if h : p = q then isTrue (by rw [h]) else isFalse (by simpa using h)
    | void | object _ | array _ | method _ _ | returnAddress | nullType => isFalse nofun
  | void, b =>
    match b with
    | void => isTrue rfl
    | primitive _ | object _ | array _ | method _ _ | returnAddress | nullType => isFalse nofun
  | object m, b =>
    match b with
    | object n => if h : m = n then isTrue (by rw [h]) else isFalse (by simpa using h)
    | primitive _ | void | array _ | method _ _ | returnAddress | nullType => isFalse nofun
  | array d, b =>
    match b with
    | array e =>
      match decEq d e with
      | isTrue h => isTrue (by rw [h])
      | isFalse h => isFalse (by simpa using h)
    | primitive _ | void | object _ | method _ _ | returnAddress | nullType => isFalse nofun
  | method ps d, b =>
    match b with
    | method qs e =>
      match decEqAll ps qs, decEq d e with
      | isTrue h, isTrue k => isTrue (by rw [h, k])
      | isFalse h, _ => isFalse fun e => h (by injection e)
      | _, isFalse k => isFalse fun e => k (by injection e)
    | primitive _ | void | object _ | array _ | returnAddress | nullType => isFalse nofun
  | returnAddress, b =>
    match b with
    | returnAddress => isTrue rfl
    | primitive _ | void | object _ | array _ | method _ _ | nullType => isFalse nofun
  | nullType, b =>
    match b with
    | nullType => isTrue rfl
    | primitive _ | void | object _ | array _ | method _ _ | returnAddress => isFalse nofun

def decEqAll : (as bs : List Descriptor) → Decidable (as = bs)
  | [], bs =>
    match bs with
    | [] => isTrue rfl
    | _ :: _ => isFalse nofun
  | a :: as, bs =>
    match bs with
    | [] => isFalse nofun
    | b :: bs =>
      match decEq a b, decEqAll as bs with
      | isTrue h, isTrue k => isTrue (by rw [h, k])
      | isFalse h, _ => isFalse fun e => h (by injection e)
      | _, isFalse k => isFalse fun e => k (by injection e)

end

instance : DecidableEq Descriptor := decEq

mutual

/-- The written form, character by character. -/
def spell : Descriptor → List Char
  | primitive p => [p.letter]
  | void => ['V']
  | object name => 'L' :: name.toList ++ [';']
  | array element => '[' :: element.spell
  | method params result => '(' :: spellAll params ++ ')' :: result.spell
  | returnAddress => "<address>".toList
  | nullType => "<null>".toList

def spellAll : List Descriptor → List Char
  | [] => []
  | d :: ds => d.spell ++ spellAll ds

end

@[simp] theorem spell_primitive (p : Primitive) : (primitive p).spell = [p.letter] := rfl

@[simp] theorem spell_void : void.spell = ['V'] := rfl

@[simp] theorem spell_object (name : String) :
    (object name).spell = 'L' :: name.toList ++ [';'] := rfl

@[simp] theorem spell_array (element : Descriptor) :
    (array element).spell = '[' :: element.spell := rfl

@[simp] theorem spell_method (params : List Descriptor) (result : Descriptor) :
    (method params result).spell = '(' :: spellAll params ++ ')' :: result.spell := rfl

@[simp] theorem spellAll_nil : spellAll [] = [] := rfl

@[simp] theorem spellAll_cons (d : Descriptor) (ds : List Descriptor) :
    spellAll (d :: ds) = d.spell ++ spellAll ds := rfl

instance : ToString Descriptor := ⟨fun d => String.ofList d.spell⟩

def isMethod : Descriptor → Bool
  | method _ _ => true
  | _ => false

def isWide : Descriptor → Bool
  | primitive p => p.isWide
  | _ => false

/-- References are classes, arrays and null. -/
def isReference : Descriptor → Bool
  | object _ | array _ | nullType => true
  | _ => false

/-- Number of variable slots that a value of the type takes. -/
def slotCount : Descriptor → Nat
  | void | method _ _ => 0
  | primitive p => if p.isWide then 2 else 1
  | _ => 1

def result? : Descriptor → Option Descriptor
  | method _ result => some result
  | _ => none

def params : Descriptor → List Descriptor
  | method params _ => params
  | _ => []

def element? : Descriptor → Option Descriptor
  | array element => some element
  | _ => none

/-- A type that may stand in a field, an array or a parameter list. Class names are nonempty and
hold no semicolon. -/
inductive IsField : Descriptor → Prop where
  | primitive (p : Primitive) : IsField (primitive p)
  | object {name : String} : name.toList ≠ [] → ';' ∉ name.toList → IsField (object name)
  | array {element : Descriptor} : IsField element → IsField (array element)

inductive IsDescriptor : Descriptor → Prop where
  | field {d : Descriptor} : IsField d → IsDescriptor d
  | void : IsDescriptor void
  | method {params : List Descriptor} {result : Descriptor} :
      (∀ d ∈ params, IsField d) → IsField result ∨ result = void →
      IsDescriptor (method params result)

inductive FieldSpelling : List Char → Descriptor → Prop where
  | primitive (p : Primitive) : FieldSpelling [p.letter] (primitive p)
  | object {name : List Char} : name ≠ [] → ';' ∉ name →
      FieldSpelling ('L' :: name ++ [';']) (object (String.ofList name))
  | array {text : List Char} {element : Descriptor} : FieldSpelling text element →
      FieldSpelling ('[' :: text) (array element)

/-- A field descriptor, or `V` for no value. -/
inductive ResultSpelling : List Char → Descriptor → Prop where
  | field {text : List Char} {d : Descriptor} : FieldSpelling text d → ResultSpelling text d
  | void : ResultSpelling ['V'] void

/-- Zero or more field descriptors without separators. -/
inductive ParamsSpelling : List Char → List Descriptor → Prop where
  | nil : ParamsSpelling [] []
  | cons {text rest : List Char} {d : Descriptor} {ds : List Descriptor} :
      FieldSpelling text d → ParamsSpelling rest ds → ParamsSpelling (text ++ rest) (d :: ds)

inductive Spelling : List Char → Descriptor → Prop where
  | result {text : List Char} {d : Descriptor} : ResultSpelling text d → Spelling text d
  | method {params result : List Char} {ds : List Descriptor} {d : Descriptor} :
      ParamsSpelling params ds → ResultSpelling result d →
      Spelling ('(' :: params ++ ')' :: result) (method ds d)

end Descriptor

end MethodFlow
