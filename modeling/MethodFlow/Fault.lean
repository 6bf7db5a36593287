import MethodFlow.Handle
import MethodFlow.Tree.Operator

/-!
Everything that an operation can refuse, by cause, and the wording of each cause.
-/

namespace MethodFlow

inductive DescriptorFault where
  /-- A whole descriptor ends at byte `position`, before the text does. -/
  | trailing (text : String) (position : Nat)
  | openParameters
  | missingType
  | openName
  | emptyName
  /-- The bytes of a class name encode no text. -/
  | undecodableName
  /-- No type starts with the byte at `position`, read as a character of its own. -/
  | badCharacter (found : Char) (position : Nat)
deriving DecidableEq

def DescriptorFault.message : DescriptorFault → String
  | trailing text position => s!"Trailing characters in descriptor '{text}' at {position}"
  | openParameters => "Unterminated parameter list in descriptor"
  | missingType => "Descriptor ends where a type was expected"
  | openName => "Unterminated class name in descriptor"
  | emptyName => "Empty class name in descriptor"
  | undecodableName => "Class name is not valid UTF-8"
  | badCharacter found position => s!"Invalid descriptor character '{found}' at {position}"

inductive Malformation where
  | descriptor (fault : DescriptorFault)
  | emptyRange (start stop : UInt16)
  | tooManyEntries (count : Nat)
deriving DecidableEq

def Malformation.message : Malformation → String
  | descriptor fault => fault.message
  | emptyRange start stop => s!"Exception range [{start.toNat}, {stop.toNat}) is empty"
  | tooManyEntries count => s!"Table has {count} entries, limit is 65535"

/-- A request that would break a rule of the tree, the graph or the variable records. -/
inductive Violation where
  | statementAsExpression (node : NodeId)
  | expressionAsStatement (node : NodeId)
  | statementAsChild (node : NodeId)
  | alreadyOwned (node owner : NodeId)
  | repeatedChild (node : NodeId)
  | nothingToReplaceIn (node : NodeId)
  | endlessOwnership (node : NodeId)
  | notVariable (node : NodeId)
  | definitionAsUse (node : NodeId)
  | notDefinition (node : NodeId)
  | linkAcrossVariables (used defined : Var)
  | shuffleArity (kind : Shuffle) (targets sources : Nat)
  | notStackSlot (node : NodeId)
  | notPhi (node : NodeId)
  | notPhiOfKind (kind : PhiKind) (node : NodeId)
  | operandDefines (operand : NodeId)
  | operandOfOther (operand : NodeId) (expected : Var)
  | repeatedDefinition (phi : NodeId) (definition : Option NodeId)
  | notLiveStatement (node : NodeId)
  | alreadyPlaced (node : NodeId) (block : BlockId)
  | notPlaced (node : NodeId)
  | unknownSubroutine (sub : SubroutineId)
  | noOccurrences (var : Var)
  | occurrenceOfOther (node : NodeId) (found expected : Var)
  | occurrenceNotPlaced (node : NodeId)
  | slotHoldsNonPhi (var : Var) (block : BlockId) (node : NodeId)
deriving DecidableEq

def Violation.message : Violation → String
  | statementAsExpression node => s!"{node} is a statement, not an expression"
  | expressionAsStatement node => s!"{node} is an expression, not a statement"
  | statementAsChild node => s!"Statement {node} cannot be used as a child"
  | alreadyOwned node owner => s!"{node} already belongs to {owner}; clone it or detach it first"
  | repeatedChild node => s!"{node} used twice as a child"
  | nothingToReplaceIn node => s!"{node} has no parent to be replaced in"
  | endlessOwnership node => s!"The owners of {node} go in a circle"
  | notVariable node => s!"{node} is not a variable"
  | definitionAsUse node => s!"{node} is a definition and cannot link to another"
  | notDefinition node => s!"{node} is not a definition"
  | linkAcrossVariables used defined => s!"Use of {used} cannot link to a definition of {defined}"
  | shuffleArity kind targets sources =>
    s!"{kind.mnemonic} writes {kind.targetCount} and reads {kind.sourceCount} slots, " ++
      s!"got {targets} and {sources}"
  | notStackSlot node => s!"{node} is not a stack slot"
  | notPhi node => s!"{node} is not a phi"
  | notPhiOfKind kind node => s!"{node} is not a {kind.text} phi"
  | operandDefines operand => s!"Phi operand {operand} must be a use"
  | operandOfOther operand expected => s!"Phi operand {operand} is not a use of {expected}"
  | repeatedDefinition phi definition =>
    s!"Catch phi {phi} already has an operand for definition {NodeId.describeOption definition}"
  | notLiveStatement node => s!"{node} is not a live statement"
  | alreadyPlaced node block => s!"{node} is already placed in {block}"
  | notPlaced node => s!"{node} is not placed in a block"
  | unknownSubroutine sub => s!"Unknown subroutine {sub}"
  | noOccurrences var => s!"No occurrences collected for {var}"
  | occurrenceOfOther node found expected =>
    s!"Occurrence {node} of {found} recorded for {expected}"
  | occurrenceNotPlaced node => s!"Occurrence {node} is not placed in a block"
  | slotHoldsNonPhi var block node => s!"Phi slot of {var} at {block} holds non-phi {node}"

inductive GraphFault where
  | missingSource (node : BlockId) (count : Nat)
  | missingTarget (node : BlockId) (count : Nat)
  | handlerOffset (pc : UInt16)
  | nothingProtected (start stop : UInt16)
  | notAClass (index : UInt16)
  | holdsPhis (count : Nat)
  | alreadyNumbered (occurrence : String)
deriving DecidableEq

def GraphFault.message : GraphFault → String
  | missingSource node count => s!"source node {node} does not exist in graph with {count} nodes"
  | missingTarget node count => s!"target node {node} does not exist in graph with {count} nodes"
  | handlerOffset pc => s!"Handler offset {pc.toNat} does not start a block"
  | nothingProtected start stop =>
    s!"No block starts in protected range {start.toNat}..{stop.toNat}"
  | notAClass index => s!"constant #{index.toNat} is not a class"
  | holdsPhis count => s!"Graph already holds {count} phis"
  | alreadyNumbered occurrence => s!"{occurrence} is already numbered"

inductive Fault where
  | malformed (cause : Malformation)
  | outOfBounds
  | violation (cause : Violation)
  | invalidNode (node : NodeId)
  | foreignBlock (block : BlockId)
  | staleGraph
  | subroutineConflict (block : BlockId)
  | graph (cause : GraphFault)
deriving DecidableEq

def Fault.message : Fault → String
  | malformed cause => cause.message
  | outOfBounds => "Out of Bound read would have occurred!"
  | violation cause => cause.message
  | invalidNode node => s!"Node {node} is not a live tree node"
  | foreignBlock block => s!"Block {block} does not belong to this graph"
  | staleGraph => "The control flow graph was modified during SSA construction"
  | subroutineConflict block => s!"Conflicting subroutine path through block {block}"
  | graph cause => cause.message

end MethodFlow
