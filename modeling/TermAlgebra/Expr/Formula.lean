import TermAlgebra.Expr.Dump

/-!
# Formulas

The infix text of an expression, with the parentheses that it needs to read back with the same
meaning. Main definitions: `Expr.parenthesize`, `Expr.formula` and `Expr.formula?`.
-/

namespace TermAlgebra.Expr

/-! ### Parentheses -/

/-- Whether the parts of the expression are held together by an operator that binds looser than
the given precedence, or as loosely if that counts too. -/
def bindsLooser (precedence : Nat) (inclusive : Bool) (e : Expr) : Bool :=
  match e.precedence? with
  | some own => own < precedence || (inclusive && own = precedence)
  | none => false

/-- The expression in parentheses if it binds too loosely to stand beside an operator. -/
def parenthesize (precedence : Nat) (inclusive : Bool) (e : Expr) : Expr :=
  if e.bindsLooser precedence inclusive then parentheses e else e

/-- The text of an expression, in parentheses in the same case. -/
def enclosed (precedence : Nat) (inclusive : Bool) (e : Expr) (text : String) : String :=
  if e.bindsLooser precedence inclusive then "(" ++ text ++ ")" else text

/-! ### Products -/

/-- Whether the expression is the integer minus one, which is written as a mere sign in front of
other factors. -/
def isMinusOne : Expr → Bool
  | integer n => n = -1
  | _ => false

/-- The text of a factor within a product. -/
def factorText (part : Expr × String) : String :=
  enclosed AssocOp.product.operator.precedence false part.1 part.2

/-- The text of the product of the given factors, none of them empty, each given with its text. -/
def factorsText : List (Expr × String) → String
  | [] => ""
  | [part] => factorText part
  | first :: second :: rest =>
    if first.1.isMinusOne then "-" ++ factorsText (second :: rest)
    else " * ".intercalate ((first :: second :: rest).map factorText)

/-- The text of a product node. An empty factor leaves a gap, except after a mere sign. -/
def productText (first : Expr × String) (others : List (Expr × String)) : String :=
  if first.1.isMinusOne then "-" ++ factorsText (others.filter fun part => !part.1.isEmpty)
  else " * ".intercalate ((first :: others).map factorText)

/-- The absolute value of a negative constant. -/
def negatedConstant? : Expr → Option Expr
  | integer n => if n < 0 then some (integer n.natAbs) else none
  | decimal d => if d.isNegative then some (decimal d.abs) else none
  | _ => none

/-- The text of a constant. -/
def constantText : Expr → String
  | integer n => Numeral.text n
  | decimal d => d.text
  | _ => ""

/-- What is written after a minus sign for a product with a negative leading constant: the product
with the absolute value of the constant, which is left out if it is the integer one. -/
def subtractedProduct? (first : Expr) (others : List (Expr × String)) : Option String :=
  first.negatedConstant?.map fun coefficient =>
    let factors := match coefficient with
      | integer 1 => others
      | c => (c, c.constantText) :: others
    factorsText (factors.filter fun part => !part.1.isEmpty)

/-! ### Formulas -/

/-- The texts of an expression: on its own, and after a minus sign in a sum if it can be
subtracted there. -/
structure Rendering where
  text : String
  subtracted : Option String := none

/-- The text of a later term of a sum, with the sign before it. -/
def Rendering.addend (r : Rendering) : String :=
  match r.subtracted with
  | some text => " - " ++ text
  | none => " + " ++ r.text

mutual

/-- The texts of an expression. -/
def render : Expr → Rendering
  | empty => ⟨"", none⟩
  | integer n => ⟨Numeral.text n, (integer n).negatedConstant?.map constantText⟩
  | decimal d => ⟨d.text, (decimal d).negatedConstant?.map constantText⟩
  | var s => ⟨s, none⟩
  | negation e =>
    let operand := (render e).text
    ⟨"-" ++ enclosed Operator.unaryMinus.precedence false e operand,
      some (enclosed Operator.plus.precedence true e operand)⟩
  | sum a b rest =>
    ⟨(render a).text ++ (render b).addend ++ String.join ((renderAll rest).map Rendering.addend),
      none⟩
  | product a b rest =>
    let others := (b, (render b).text) :: rest.zip ((renderAll rest).map Rendering.text)
    ⟨productText (a, (render a).text) others, subtractedProduct? a others⟩
  | division l r =>
    ⟨enclosed Operator.divide.precedence false l (render l).text ++ " / " ++
      enclosed Operator.divide.precedence true r (render r).text, none⟩
  | parentheses e => ⟨"(" ++ (render e).text ++ ")", none⟩

/-- The texts of all the expressions. -/
def renderAll : List Expr → List Rendering
  | [] => []
  | e :: es => render e :: renderAll es

end

/-- The infix text of an expression. -/
def formula (e : Expr) : String :=
  (render e).text

/-- The infix text, if the expression can be written. -/
def formula? (e : Expr) : Except Fault String :=
  e.written? e.formula

end TermAlgebra.Expr
