/-!
# Operators

The operators of the input language with their symbols, precedence, associativity and number of
operands. Main definitions: `Operator`, `Operator.precedence`, `Operator.asUnary` and
`Operator.yieldsTo`.
-/

namespace TermAlgebra

/-- How a row of operators of equal precedence groups. -/
inductive Associativity
  | left
  | right
  | both
deriving DecidableEq, Repr

/-- The word for the way of grouping. -/
def Associativity.name : Associativity → String
  | left => "left"
  | right => "right"
  | both => "both"

/-- The operators. A sign is an operator of its own in front of an operand. -/
inductive Operator
  | plus
  | minus
  | times
  | divide
  | unaryPlus
  | unaryMinus
deriving DecidableEq, Repr

namespace Operator

/-- The character written for the operator. -/
def symbol : Operator → Char
  | plus | unaryPlus => '+'
  | minus | unaryMinus => '-'
  | times => '*'
  | divide => '/'

/-- Operators of higher precedence are applied first. -/
def precedence : Operator → Nat
  | plus | minus => 2
  | times | divide => 3
  | unaryPlus | unaryMinus => 9

/-- How the operator groups with its own kind. -/
def associativity : Operator → Associativity
  | plus | times => .both
  | minus | divide => .left
  | unaryPlus | unaryMinus => .right

/-- Whether the operator is a sign. -/
def isUnary : Operator → Bool
  | unaryPlus | unaryMinus => true
  | _ => false

/-- The number of operands. -/
def arity (op : Operator) : Nat :=
  if op.isUnary then 1 else 2

/-- The sign written like the operator, or the operator itself where there is none. -/
def asUnary : Operator → Operator
  | plus => unaryPlus
  | minus => unaryMinus
  | op => op

/-- The name of the operator in messages. -/
def name : Operator → String
  | plus => "PLUS"
  | minus => "MINUS"
  | times => "TIMES"
  | divide => "DIVIDE"
  | unaryPlus => "UNARY_PLUS"
  | unaryMinus => "UNARY_MINUS"

/-- Whether a waiting operator `other` has to be applied before `op` can wait on top of it: it
binds at least as tightly, or more tightly where `op` groups to the right. -/
def yieldsTo (op other : Operator) : Bool :=
  if op.associativity = .right then op.precedence < other.precedence
  else op.precedence ≤ other.precedence

@[simp] theorem isUnary_asUnary_plus : plus.asUnary.isUnary = true := rfl

@[simp] theorem isUnary_asUnary_minus : minus.asUnary.isUnary = true := rfl

@[simp] theorem asUnary_asUnary (op : Operator) : op.asUnary.asUnary = op.asUnary := by
  cases op <;> rfl

/-- A sign never makes a waiting operator be applied. -/
theorem yieldsTo_eq_false_of_isUnary {op : Operator} (h : op.isUnary = true) (other : Operator) :
    op.yieldsTo other = false := by
  cases op <;> cases other <;> simp_all [isUnary, yieldsTo, associativity, precedence]

end Operator

/-- The two associative operations, whose terms form one sequence. -/
inductive AssocOp
  | sum
  | product
deriving DecidableEq, Repr

namespace AssocOp

/-- The operator written between the terms. -/
def operator : AssocOp → Operator
  | sum => .plus
  | product => .times

/-- The name of the operation in structural dumps. -/
def name : AssocOp → String
  | sum => "Sum"
  | product => "Product"

/-- What each joint between two terms adds to the complexity of a term. -/
def cost : AssocOp → Nat
  | sum => 2
  | product => 1

end AssocOp

end TermAlgebra
