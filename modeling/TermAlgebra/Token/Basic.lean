import TermAlgebra.Decimal.Written
import TermAlgebra.Operator
import TermAlgebra.Text.Quoted

/-!
# Tokens

The lexical units of the input language, the roles that they can play beside an operator, and
their texts in messages. Main definitions: `Paren`, `Token` and `Token.text`.
-/

namespace TermAlgebra

/-- The two parentheses. -/
inductive Paren
  | left
  | right
deriving DecidableEq, Repr

/-- The text of a parenthesis in messages. -/
def Paren.text : Paren → String
  | left => "Paren.LEFT"
  | right => "Paren.RIGHT"

/-- A lexical unit: an operator, a parenthesis, a constant or a name. -/
inductive Token
  | operator (op : Operator)
  | paren (side : Paren)
  | integer (value : Int)
  | decimal (value : Decimal)
  | name (name : String)
deriving DecidableEq

/-- The text of an operator in messages. -/
def Operator.text (op : Operator) : String :=
  "Operator." ++ op.name

namespace Token

/-- Constants and names are operands. -/
def isOperand : Token → Bool
  | integer _ | decimal _ | name _ => true
  | operator _ | paren _ => false

/-- Whether an operand ends with the token. -/
def endsOperand (token : Token) : Bool :=
  token.isOperand || token = paren .right

/-- Whether an operand can start with the token. -/
def startsOperand : Token → Bool
  | operator op => op.isUnary
  | paren side => side = .left
  | _ => true

/-- The text of a token in messages. -/
def text : Token → String
  | operator op => op.text
  | paren side => side.text
  | integer n => "Integer(value=" ++ Numeral.text n ++ ")"
  | decimal d => "Decimal(value=" ++ d.text ++ ")"
  | name s => "Name(value=" ++ Text.quoted s ++ ")"

/-- The text of a place that may hold a token. -/
def textOrNone : Option Token → String
  | some token => token.text
  | none => "None"

end Token

/-- Whether what waits on top of the operator has to be applied before `op` can wait there. Only
an operator can ask for that. -/
def Operator.bindsBefore (op : Operator) : Option Token → Bool
  | some (.operator other) => op.yieldsTo other
  | _ => false

end TermAlgebra
