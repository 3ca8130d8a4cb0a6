import TermAlgebra.Token.Basic

/-!
# Faults

Why a text is no expression, why a value cannot be used as an operand, and why a calculation has
no result. Main definitions: `Fault` and `Fault.message`.
-/

namespace TermAlgebra

/-- The kinds of node of an expression, as they are named where a constant was wanted. -/
inductive NodeKind
  | empty
  | integer
  | decimal
  | var
  | negation
  | assoc (op : AssocOp)
  | division
  | parentheses
deriving DecidableEq, Repr

/-- The name of a kind of node. -/
def NodeKind.label : NodeKind → String
  | empty => "EmptyExpression"
  | integer => "Integer"
  | decimal => "Decimal"
  | var => "Variable"
  | negation => "Negation"
  | assoc op => op.name
  | division => "Division"
  | parentheses => "Parentheses"

/-- The kinds of value that can be handed in as an operand. -/
inductive ValueKind
  | whole
  | decimal
  | text
  | truth
  | nothing
  | list
  | node (kind : NodeKind)
deriving DecidableEq, Repr

/-- The name of a kind of value. -/
def ValueKind.label : ValueKind → String
  | whole => "int"
  | decimal => "float"
  | text => "str"
  | truth => "bool"
  | nothing => "NoneType"
  | list => "list"
  | node kind => "symbolic.mathobj." ++ kind.label

/-- A kind of value as it appears in messages. -/
def ValueKind.description (kind : ValueKind) : String :=
  "<class '" ++ kind.label ++ "'>"

/-- Which operands a binary operator lacks. -/
inductive MissingOperand
  | left
  | right
  | both
deriving DecidableEq, Repr

/-- What a message adds about the operands that are missing. -/
def MissingOperand.phrase : MissingOperand → String
  | left => "with no left hand operand."
  | right => "with no right hand operand."
  | both => "without operands."

/-- The causes of failure. -/
inductive Fault
  /-- No token starts where the remaining text starts. -/
  | invalidToken (remaining : String)
  /-- A parenthesis has no partner. -/
  | mismatchedParenthesis
  /-- A token that is no operand stands for one. -/
  | notAnOperand (token : Option Token)
  /-- A place without a token stands among the tokens. -/
  | unexpectedToken (token : Option Token)
  /-- A binary operator lacks an operand. -/
  | missingOperand (op : Operator) (missing : MissingOperand)
  /-- A sign lacks its operand. -/
  | missingSignOperand (op : Operator)
  /-- Several expressions stand side by side. -/
  | severalExpressions
  /-- A numeral has too many digits to be read. -/
  | numeralTooLong (digits : Nat)
  /-- A whole number has too many digits to be written. -/
  | integerTooLong
  /-- A sum or product has fewer than two terms. -/
  | tooFewTerms (op : AssocOp) (count : Nat)
  /-- A value of this kind is no operand. -/
  | unknownOperand (kind : ValueKind)
  /-- A value of this kind makes no integer constant. -/
  | notAnInteger (kind : ValueKind)
  /-- A value of this kind makes no decimal constant. -/
  | notADecimal (kind : ValueKind)
  /-- A name has no value. -/
  | unbound (name : String)
  /-- A whole number is too large to become a decimal number. -/
  | integerBeyondDecimal
  /-- A quotient of whole numbers is too large for a decimal number. -/
  | quotientBeyondDecimal
  /-- A whole number is divided by the whole number zero. -/
  | divisionByZero
  /-- A division by zero involves a decimal number. -/
  | decimalDivisionByZero
deriving DecidableEq

namespace Fault

/-- How a message about a number with too many digits starts. -/
def tooManyDigits : String :=
  "Exceeds the limit (4300 digits) for integer string conversion"

/-- How a message about a number with too many digits ends. -/
def digitLimitAdvice : String :=
  "; use sys.set_int_max_str_digits() to increase the limit"

/-- The wording of a fault. -/
def message : Fault → String
  | invalidToken remaining => "Invalid token " ++ Text.quoted remaining
  | mismatchedParenthesis => "Mismatched parenthesis"
  | notAnOperand token => "Not an operand: " ++ Token.textOrNone token
  | unexpectedToken token => "Unexpected token: " ++ Token.textOrNone token
  | missingOperand op missing =>
    "Can not apply binary operator " ++ op.symbol.toString ++ " " ++ missing.phrase
  | missingSignOperand op => "Can not apply operator " ++ op.symbol.toString ++ " without operand."
  | severalExpressions => "Unexpected error: result is not a single expression."
  | numeralTooLong digits =>
    tooManyDigits ++ ": value has " ++ Numeral.text digits ++ " digits" ++ digitLimitAdvice
  | integerTooLong => tooManyDigits ++ digitLimitAdvice
  | tooFewTerms op count =>
    op.name ++ " needs at least two terms, got " ++ Numeral.text count
  | unknownOperand kind => "Unknown object type: " ++ kind.description
  | notAnInteger kind => "Integer needs an int, not " ++ kind.description
  | notADecimal kind => "Decimal needs a float, not " ++ kind.description
  | unbound name => "No value given for variable " ++ Text.quoted name
  | integerBeyondDecimal => "int too large to convert to float"
  | quotientBeyondDecimal => "integer division result too large for a float"
  | divisionByZero => "division by zero"
  | decimalDivisionByZero => "float division by zero"

/-- Whether the fault lies in the text of an expression, so that the text may be taken for a name
instead. -/
def isSyntactic : Fault → Bool
  | invalidToken _ | mismatchedParenthesis | notAnOperand _ | unexpectedToken _
  | missingOperand .. | missingSignOperand _ | severalExpressions => true
  | _ => false

end Fault

end TermAlgebra
