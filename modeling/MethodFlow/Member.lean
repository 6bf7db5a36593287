import MethodFlow.Descriptor.Basic

/-!
Symbolic references to the fields and methods of a class.
-/

namespace MethodFlow

structure Signature where
  name : String
  type : Descriptor
deriving DecidableEq

structure Member where
  owner : Descriptor
  signature : Signature
deriving DecidableEq

instance : ToString Signature := ⟨fun s => s.name ++ " " ++ toString s.type⟩

namespace Member

/-- A member with a method type is a method, any other a field. -/
def isMethod (m : Member) : Bool := m.signature.type.isMethod

/-- A class is named without the marks of its descriptor. -/
def ownerText (m : Member) : String :=
  match m.owner with
  | .object name => name
  | other => toString other

instance : ToString Member where
  toString m :=
    let sort := if m.isMethod then "Method" else "Field"
    "<" ++ sort ++ " " ++ m.ownerText ++ "." ++ toString m.signature ++ ">"

end Member

end MethodFlow
