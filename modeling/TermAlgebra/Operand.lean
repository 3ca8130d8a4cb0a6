import TermAlgebra.Expr.Assembly
import TermAlgebra.Expr.Evaluate

/-!
# Operands

The values that can be handed in where an expression or a constant is wanted, and how they become
one. Main definitions: `Operand`, `Operand.toExpr` and the constructors of nodes from operands.
-/

namespace TermAlgebra

/-- A value handed in as an operand. -/
inductive Operand
  | expr (e : Expr)
  | whole (n : Int)
  | decimal (d : Decimal)
  | text (s : String)
  | truth (b : Bool)
  | nothing
  | list

namespace Operand

/-- The kind of a value. -/
def kind : Operand → ValueKind
  | expr e => .node e.kind
  | whole _ => .whole
  | decimal _ => .decimal
  | text _ => .text
  | truth _ => .truth
  | nothing => .nothing
  | list => .list

/-- The number of a plain value. -/
def number? : Operand → Option Number
  | whole n => some (.integer n)
  | decimal d => some (.decimal d)
  | _ => none

/-- The expression of a text, or a variable of that name if the text is no expression. -/
def exprOfText (s : String) : Except Fault Expr :=
  match Expr.parse s with
  | .ok e => .ok e
  | .error fault => if fault.isSyntactic then .ok (.var s) else .error fault

/-- The expression that a value stands for. -/
def toExpr : Operand → Except Fault Expr
  | expr e => .ok e
  | whole n => .ok (.integer n)
  | decimal d => .ok (.decimal d)
  | text s => exprOfText s
  | other => .error (.unknownOperand other.kind)

/-- The integer constant of a whole number or of another integer constant. -/
def toInteger : Operand → Except Fault Expr
  | whole n | expr (.integer n) => .ok (.integer n)
  | other => .error (.notAnInteger other.kind)

/-- The decimal constant of a number or of another constant. -/
def toDecimal : Operand → Except Fault Expr
  | whole n | expr (.integer n) => .decimal <$> (Number.integer n).toDecimal
  | decimal d | expr (.decimal d) => .ok (.decimal d)
  | other => .error (.notADecimal other.kind)

/-- The negation of an operand. -/
def negation (operand : Operand) : Except Fault Expr :=
  .negation <$> operand.toExpr

/-- The quotient of two operands. -/
def division (left right : Operand) : Except Fault Expr := do
  return .division (← left.toExpr) (← right.toExpr)

/-- The node of `op` with the given terms, of which it needs at least two. -/
def nary (op : AssocOp) : List Operand → Except Fault Expr
  | first :: second :: rest => do
    return .nary op (← first.toExpr) (← second.toExpr) (← rest.mapM toExpr)
  | short => .error (.tooFewTerms op short.length)

end Operand

end TermAlgebra
