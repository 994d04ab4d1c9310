import MiniJava.Lexical.Token
import MiniJava.Tree.Basic

/-!
# Precedence of operators

What may follow an operand, and how tightly it binds. All levels are left-associative: what stands
to the right of an operator must bind tighter than the operator.
-/

namespace MiniJava

/-- How tightly an operator between two operands binds. -/
def BinaryOp.precedence : BinaryOp → Nat
  | and => 10
  | lessThan => 20
  | plus | minus => 30
  | times => 40

/-- The token that an operator between two operands is written with. -/
def BinaryOp.tokenKind : BinaryOp → TokenKind
  | and => .andAnd
  | lessThan => .lessThan
  | plus => .plus
  | minus => .minus
  | times => .star

/-- What may follow an operand and takes it in. -/
inductive Operator where
  | binary (op : BinaryOp)
  | index
  | length
  | call
deriving DecidableEq, Inhabited

namespace Operator

/-- The level of the loosest form that follows its operand without having a second one. -/
def postfixLevel : Nat := 50

/-- How tightly an operator binds to the operand on its left. -/
def leftPower : Operator → Nat
  | binary op => op.precedence
  | index => postfixLevel
  | length => 60
  | call => 70

/-- How tightly the operand on the right of an operator has to bind. -/
def rightPower (op : Operator) : Nat := op.leftPower + 1

/-- Whether the operator has no second operand. -/
def isPostfix (op : Operator) : Bool := postfixLevel ≤ op.leftPower

/-- The sign or the name of an operator. -/
def name : Operator → String
  | binary op => op.symbol
  | index => "Index"
  | length => "Length"
  | call => "Call"

/--
The operator that a token starts. A dot is the length operator when `length` follows, and starts
a call otherwise.
-/
def at? (current next : TokenKind) : Option Operator :=
  match current with
  | .andAnd => some (binary .and)
  | .lessThan => some (binary .lessThan)
  | .plus => some (binary .plus)
  | .minus => some (binary .minus)
  | .star => some (binary .times)
  | .leftBracket => some index
  | .dot => if next = .lengthKw then some length else some call
  | _ => none

end Operator

end MiniJava
