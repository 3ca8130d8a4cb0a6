import TermAlgebra.Expr.Basic

/-!
# Structural dumps

A dump spells out every node of an expression by its name, so that different trees have different
dumps. Main definitions: `Expr.isWritable`, `Expr.dump` and `Expr.dump?`.
-/

namespace TermAlgebra.Expr

mutual

/-- Whether every integer of the expression has few enough digits to be written. -/
def isWritable : Expr → Bool
  | empty => true
  | integer n => Numeral.fits n
  | decimal _ => true
  | var _ => true
  | negation e => isWritable e
  | nary _ a b rest => isWritable a && isWritable b && isWritableAll rest
  | division l r => isWritable l && isWritable r
  | parentheses e => isWritable e

/-- Whether all the expressions can be written. -/
def isWritableAll : List Expr → Bool
  | [] => true
  | e :: es => isWritable e && isWritableAll es

end

mutual

/-- The structural dump of an expression. -/
def dump : Expr → String
  | empty => "Empty"
  | integer n => "Integer(" ++ Numeral.text n ++ ")"
  | decimal d => "Decimal(" ++ d.text ++ ")"
  | var s => "Variable(" ++ Text.quoted s ++ ")"
  | negation e => "Negation(" ++ dump e ++ ")"
  | nary op a b rest =>
    op.name ++ "(" ++ dump a ++ ", " ++ dump b ++ dumpFurther rest ++ ")"
  | division l r => "Division(" ++ dump l ++ ", " ++ dump r ++ ")"
  | parentheses e => "Parentheses(" ++ dump e ++ ")"

/-- The dumps of further terms, each after a comma. -/
def dumpFurther : List Expr → String
  | [] => ""
  | e :: es => ", " ++ dump e ++ dumpFurther es

end

/-- The result of writing an expression, which fails if an integer has too many digits. -/
def written? (e : Expr) (text : String) : Except Fault String :=
  if e.isWritable then .ok text else .error .integerTooLong

/-- The structural dump, if the expression can be written. -/
def dump? (e : Expr) : Except Fault String :=
  e.written? e.dump

end TermAlgebra.Expr
