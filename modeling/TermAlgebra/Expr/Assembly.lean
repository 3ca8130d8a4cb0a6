import TermAlgebra.Expr.Basic
import TermAlgebra.Token.Sign

/-!
# Assembly

Tokens are assembled into an expression from left to right. Operators wait on a stack until an
operator that binds looser, a closing parenthesis or the end of the tokens has them applied to the
expressions built so far. Main definitions: `Operator.applyTo`, `Assembly`, `Expr.assemble` and
`Expr.parse`.
-/

namespace TermAlgebra

/-- The expression of an operand token. -/
def Expr.ofToken? : Token → Option Expr
  | .integer n => some (integer n)
  | .decimal d => some (decimal d)
  | .name s => some (var s)
  | .operator _ | .paren _ => none

/-- The expression of a place where an operand is wanted. -/
def Expr.ofOperand (place : Option Token) : Except Fault Expr :=
  (place.bind ofToken?).elim (.error (.notAnOperand place)) .ok

namespace Operator

/-- A binary operator needs an operand that ends just before it and one that starts just after
it. -/
def checkNeighbours (op : Operator) (previous following : Option Token) : Except Fault Unit :=
  match previous.any Token.endsOperand, following.any Token.startsOperand with
  | true, true => .ok ()
  | false, false => .error (.missingOperand op .both)
  | false, true => .error (.missingOperand op .left)
  | true, false => .error (.missingOperand op .right)

/-- What a sign makes of its operand. -/
def signed (op : Operator) (operand : Expr) : Expr :=
  if op = unaryMinus then .negation operand else operand

/-- What a binary operator makes of its operands. A difference is a sum with a negation. -/
def combined (op : Operator) (left right : Expr) : Expr :=
  match op with
  | times => .join .product left right
  | divide => .division left right
  | minus => .join .sum left (.negation right)
  | _ => .join .sum left right

/-- The operator applied to the topmost of the operands. The left one of two operands was there
first, so it is the right one that a single operand leaves missing. -/
def applyTo (op : Operator) (operands : List Expr) : Except Fault (List Expr) :=
  if op.isUnary then
    match operands with
    | [] => .error (.missingSignOperand op)
    | operand :: rest => .ok (op.signed operand :: rest)
  else
    match operands with
    | [] => .error (.missingOperand op .both)
    | [_] => .error (.missingOperand op .right)
    | right :: left :: rest => .ok (op.combined left right :: rest)

end Operator

/-- What waits during assembly: an operator, or the barrier of an open parenthesis. -/
inductive Pending
  | operator (op : Operator)
  | barrier
deriving DecidableEq, Repr

/-- The state of an assembly: what waits, and the expressions built so far, topmost first. -/
structure Assembly where
  pending : List Pending := []
  operands : List Expr := []

namespace Assembly

/-- Applies the waiting operators that `op` has to wait for. -/
def makeWay (op : Operator) : List Pending → List Expr → Except Fault Assembly
  | .operator top :: pending, operands =>
    if op.yieldsTo top then do makeWay op pending (← top.applyTo operands)
    else .ok ⟨.operator top :: pending, operands⟩
  | pending, operands => .ok ⟨pending, operands⟩

/-- Applies the operators that wait inside the innermost open parenthesis, which is closed. -/
def close : List Pending → List Expr → Except Fault Assembly
  | [], _ => .error .mismatchedParenthesis
  | .barrier :: pending, operands => .ok ⟨pending, operands⟩
  | .operator op :: pending, operands => do close pending (← op.applyTo operands)

/-- Applies all the operators that still wait. No parenthesis may be left open. -/
def finish : List Pending → List Expr → Except Fault (List Expr)
  | [], operands => .ok operands
  | .barrier :: _, _ => .error .mismatchedParenthesis
  | .operator op :: pending, operands => do finish pending (← op.applyTo operands)

/-- Takes in one token between its neighbours. -/
def push (state : Assembly) (previous : Option Token) (token : Token)
    (following : Option Token) : Except Fault Assembly :=
  match token with
  | .operator op => do
    unless op.isUnary do op.checkNeighbours previous following
    let state ← makeWay op state.pending state.operands
    return { state with pending := .operator op :: state.pending }
  | .paren .left => .ok { state with pending := .barrier :: state.pending }
  | .paren .right => close state.pending state.operands
  | .integer n => .ok { state with operands := .integer n :: state.operands }
  | .decimal d => .ok { state with operands := .decimal d :: state.operands }
  | .name s => .ok { state with operands := .var s :: state.operands }

/-- Takes in all the tokens after the given one. -/
def run (state : Assembly) (previous : Option Token) : List Token → Except Fault Assembly
  | [] => .ok state
  | token :: rest => do run (← state.push previous token rest.head?) (some token) rest

/-- The expression that is built when the tokens have ended. -/
def result (state : Assembly) : Except Fault Expr := do
  match ← finish state.pending state.operands with
  | [] => return .empty
  | [e] => return e
  | _ => throw .severalExpressions

end Assembly

namespace Expr

/-- The expression of a list of tokens whose signs are told apart. -/
def assemble (tokens : List Token) : Except Fault Expr := do
  (← ({} : Assembly).run none tokens).result

/-- The same for places that may hold no token. The first place without one is a fault, unless the
tokens before it have a fault already. -/
def assemblePlaces (places : List (Option Token)) : Except Fault Expr :=
  let tokens := (places.takeWhile Option.isSome).filterMap id
  if tokens.length = places.length then assemble tokens
  else do
    let _ ← ({} : Assembly).run none tokens
    throw (.unexpectedToken none)

/-- The expression that a text stands for. -/
def parse (s : String) : Except Fault Expr := do
  assemble (← Token.ofText s)

end Expr

end TermAlgebra
