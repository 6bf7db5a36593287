/-!
The fixed vocabularies of the expression trees: binary operators, stack shuffles and the kinds of
phi.
-/

namespace MethodFlow

/-- Binary operators. The last three compare two values and give an integer: for longs, and for
floating point numbers with the answer for unordered operands in the name. -/
inductive BinaryOp where
  | add
  | sub
  | mul
  | div
  | rem
  | and
  | or
  | xor
  | compare
  | compareLow
  | compareHigh
deriving DecidableEq

namespace BinaryOp

/-- Every operator, in the order in which lists of them are shown. -/
def all : List BinaryOp :=
  [add, sub, mul, div, rem, and, or, xor, compare, compareLow, compareHigh]

def symbol : BinaryOp → Char
  | add => '+'
  | sub => '-'
  | mul => '*'
  | div => '/'
  | rem => '%'
  | and => '&'
  | or => '|'
  | xor => '^'
  | compare => '?'
  | compareLow => '<'
  | compareHigh => '>'

def ofSymbol? (c : Char) : Option BinaryOp := all.find? (·.symbol = c)

theorem symbol_injective {a b : BinaryOp} (h : a.symbol = b.symbol) : a = b := by
  cases a <;> cases b <;> first | rfl | exact absurd h (by decide)

def name : BinaryOp → String
  | add => "Add"
  | sub => "Sub"
  | mul => "Mul"
  | div => "Div"
  | rem => "Rem"
  | and => "And"
  | or => "Or"
  | xor => "Xor"
  | compare => "Cmp"
  | compareLow => "CmpL"
  | compareHigh => "CmpG"

def isComparison : BinaryOp → Bool
  | compare | compareLow | compareHigh => true
  | _ => false

end BinaryOp

/-- The instructions that shuffle the top of the operand stack. -/
inductive Shuffle where
  | swap
  | dup
  | dupUnder1
  | dupUnder2
  | dup2
  | dup2Under1
  | dup2Under2
deriving DecidableEq

namespace Shuffle

def all : List Shuffle := [swap, dup, dupUnder1, dupUnder2, dup2, dup2Under1, dup2Under2]

def mnemonic : Shuffle → String
  | swap => "swap"
  | dup => "dup"
  | dupUnder1 => "dup_x1"
  | dupUnder2 => "dup_x2"
  | dup2 => "dup2"
  | dup2Under1 => "dup2_x1"
  | dup2Under2 => "dup2_x2"

def ofMnemonic? (text : String) : Option Shuffle := all.find? (·.mnemonic = text)

/-- For each slot written, from the deepest up, the slot read that it copies. -/
def mapping : Shuffle → List Nat
  | swap => [1, 0]
  | dup => [0, 0]
  | dupUnder1 => [1, 0, 1]
  | dupUnder2 => [2, 0, 1, 2]
  | dup2 => [0, 1, 0, 1]
  | dup2Under1 => [1, 2, 0, 1, 2]
  | dup2Under2 => [2, 3, 0, 1, 2, 3]

def sourceCount : Shuffle → Nat
  | dup => 1
  | swap | dupUnder1 | dup2 => 2
  | dupUnder2 | dup2Under1 => 3
  | dup2Under2 => 4

def targetCount (s : Shuffle) : Nat := s.mapping.length

end Shuffle

/-- What a phi merges: the ways into a join, the definitions that reach a handler, or the calls that
return to a block. -/
inductive PhiKind where
  | joining
  | catching
  | returning
deriving DecidableEq

namespace PhiKind

/-- Where two kinds compete for a block, the higher rank wins. -/
def rank : PhiKind → Nat
  | joining => 0
  | catching => 1
  | returning => 2

def text : PhiKind → String
  | joining => "join"
  | catching => "catch"
  | returning => "return"

end PhiKind

end MethodFlow
