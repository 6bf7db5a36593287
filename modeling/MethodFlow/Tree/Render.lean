import MethodFlow.Tree.Variable

/-!
The text of a tree. Statements are written as assignments, a variable with a number carries it as a
suffix, and a node that is no longer in use is shown as invalid.
-/

namespace MethodFlow.Tree

def commaSeparated (texts : List String) : String := ", ".intercalate texts

/-- A variable with the number of the definition that it stands for. -/
def variableText (t : Tree) (n : NodeId) (var : Var) : String :=
  match t.versionOf n with
  | .ok (some version) => s!"{var}_{version}"
  | _ => toString var

def keyedText (text : NodeId → String) (operand : BlockId × NodeId) : String :=
  s!"{operand.1}=" ++ text operand.2

/-- A phi without its target. -/
def inputsText (text : NodeId → String) : PhiInputs → String
  | .joining _ operands => "Phi(" ++ commaSeparated (operands.map (keyedText text)) ++ ")"
  | .catching operands => "Phi-Catch(" ++ commaSeparated (operands.map text) ++ ")"
  | .returning _ operands => "Phi-Return(" ++ commaSeparated (operands.map (keyedText text)) ++ ")"

/-- The text of a node and what is below it, to a depth of `limit`. -/
def textTo (t : Tree) : Nat → NodeId → String
  | 0, _ => "<invalid>"
  | limit + 1, n =>
    match t.node? n with
    | none => "<invalid>"
    | some node =>
      match node with
      | .occurrence o => t.variableText n o.var
      | .literal value => value.text
      | .binary op left right _ =>
        "(" ++ t.textTo limit left ++ " " ++ op.symbol.toString ++ " " ++
          t.textTo limit right ++ ")"
      | .returnAddress => "<return address>"
      | .eval value => "eval " ++ t.textTo limit value
      | .store target value => t.textTo limit target ++ " := " ++ t.textTo limit value
      | .shuffle kind targets sources =>
        "(" ++ commaSeparated (targets.map (t.textTo limit)) ++ ") := " ++ kind.mnemonic ++ "(" ++
          commaSeparated (sources.map (t.textTo limit)) ++ ")"
      | .returnValue value => "return " ++ t.textTo limit value
      | .returnVoid => "return"
      | .saveAddress sub => s!"store return address of {sub}"
      | .phi p => t.textTo limit p.target ++ " := " ++ inputsText (t.textTo limit) p.inputs

def text (t : Tree) (n : NodeId) : String := t.textTo t.size n

def labelledText (t : Tree) (n : NodeId) : String := s!"{n} " ++ t.text n

end MethodFlow.Tree
