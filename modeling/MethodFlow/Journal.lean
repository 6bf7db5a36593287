import MethodFlow.Handle
import MethodFlow.Tree.Operator

/-!
What a conversion reports about itself while it runs. Every event is recorded, whatever becomes of
the operation that it belongs to; a reader leaves out those below the level it wants.
-/

namespace MethodFlow

inductive Level where
  | warn
  | debug
  | trace
deriving DecidableEq

namespace Level

/-- Levels with a greater detail are left out first. -/
def detail : Level → Nat
  | warn => 1
  | debug => 2
  | trace => 3

def text : Level → String
  | warn => "WARN"
  | debug => "DEBUG"
  | trace => "TRACE"

end Level

inductive Event where
  /-- The edge that `operand` stood for is gone. -/
  | edgeOperandDropped (operand phi : NodeId)
  /-- An earlier operand stands for the same definition. -/
  | repeatedOperandDropped (operand phi : NodeId)
  | occurrencesFound (var : Var) (count : Nat)
  | occurrencesUnreachable (var : Var) (count : Nat)
  | phiOutranked (kind : PhiKind) (var : Var) (block : BlockId) (existing : PhiKind)
  | phiPlaced (kind : PhiKind) (var : Var) (block : BlockId)
  | phiRemoved (phi : NodeId) (var : Var) (block : BlockId)
  | phiCollapsed (target replacement : NodeId)
  | numbered (definition : NodeId) (var : Var) (version : Nat)
  | linked (occurrence : NodeId) (block : BlockId) (definition : Option NodeId)
deriving DecidableEq

namespace Event

def level : Event → Level
  | occurrencesUnreachable _ _ => .warn
  | phiOutranked _ _ _ _ | phiPlaced _ _ _ | phiRemoved _ _ _ | phiCollapsed _ _ => .debug
  | edgeOperandDropped _ _ | repeatedOperandDropped _ _ | occurrencesFound _ _ | numbered _ _ _
  | linked _ _ _ => .trace

def message : Event → String
  | edgeOperandDropped operand phi => s!"dropping operand {operand} of {phi} for a removed edge"
  | repeatedOperandDropped operand phi => s!"dropping duplicate catch operand {operand} of {phi}"
  | occurrencesFound var count => s!"{var} has {count} occurrences"
  | occurrencesUnreachable var count =>
    s!"{count} occurrences of {var} lie in unreachable blocks and are left unrenamed"
  | phiOutranked kind var block existing =>
    s!"{kind.text} phi for {var} at {block} replaces the {existing.text} phi"
  | phiPlaced kind var block => s!"place {kind.text} phi for {var} in {block}"
  | phiRemoved phi var block => s!"removing phi {phi} for {var} at {block}"
  | phiCollapsed target replacement => s!"collapsed {target} into {replacement}"
  | numbered definition var version => s!"{definition} defines {var}_{version}"
  | linked occurrence block definition =>
    s!"{occurrence} in {block} uses {NodeId.describeOption definition}"

def line (e : Event) : String := e.level.text ++ " " ++ e.message

end Event

end MethodFlow
