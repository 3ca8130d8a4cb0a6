import TermAlgebra.Expr.Basic

/-!
# Common factors

A sum is factored by taking a product of common factors out of some of its terms. Main
definitions: `Expr.factors`, `Expr.divideOut`, `Factorization` and `Expr.factorizations`.
-/

namespace TermAlgebra

namespace Expr

mutual

/-- The factors of a term that are no constants, from left to right. A negation has those of its
operand. -/
def factors : Expr → List Expr
  | empty => []
  | integer _ => []
  | decimal _ => []
  | negation e => factors e
  | product a b rest => factors a ++ (factors b ++ factorsAll rest)
  | e => [e]

/-- The factors of all the expressions. -/
def factorsAll : List Expr → List Expr
  | [] => []
  | e :: es => factors e ++ factorsAll es

end

/-- The factors are listed item by item. -/
theorem factorsAll_eq_flatMap (es : List Expr) : factorsAll es = es.flatMap factors := by
  induction es with
  | nil => rfl
  | cons e es ih => simp [factorsAll, ih]

end Expr

/-- Powers of expressions: each base with its exponent. -/
abbrev Powers := List (Expr × Nat)

namespace Powers

/-- The powers with the exponent of one base replaced, or the base added. -/
def set (base : Expr) (exponent : Nat) : Powers → Powers
  | [] => [(base, exponent)]
  | (b, n) :: powers =>
    if b == base then (b, exponent) :: powers else (b, n) :: set base exponent powers

/-- The powers without one factor, if it is among them. -/
def take? (factor : Expr) : Powers → Option Powers
  | [] => none
  | (b, n) :: powers =>
    if b == factor then
      match n with
      | 0 => none
      | n + 1 => some ((b, n) :: powers)
    else (take? factor powers).map ((b, n) :: ·)

/-- All factors of the powers, each as often as its exponent says. -/
def elements (powers : Powers) : List Expr :=
  powers.flatMap fun (base, exponent) => List.replicate exponent base

end Powers

namespace Expr

/-- What is known after powers have been taken out of some factors: the factors that are left, the
powers that were not found, and whether an odd number of negations was passed. -/
structure Remains where
  left : List Expr
  powers : Powers
  negated : Bool

/-- What remains of one factor after another. -/
def Remains.append (first second : Remains) : Remains :=
  ⟨first.left ++ second.left, second.powers, first.negated ^^ second.negated⟩

mutual

/-- Takes powers out of the factors of a term, from left to right. -/
def strike : Expr → Powers → Remains
  | negation e, powers =>
    let remains := strike e powers
    { remains with negated := !remains.negated }
  | product a b rest, powers =>
    let first := strike a powers
    let second := strike b first.powers
    first.append (second.append (strikeAll rest second.powers))
  | e, powers =>
    match powers.take? e with
    | some fewer => ⟨[], fewer, false⟩
    | none => ⟨[e], powers, false⟩

/-- Takes powers out of several factors, one after another. -/
def strikeAll : List Expr → Powers → Remains
  | [], powers => ⟨[], powers, false⟩
  | e :: es, powers =>
    let first := strike e powers
    first.append (strikeAll es first.powers)

end

/-- A term divided by powers of its factors: the product of what remains, or one, with the sign of
the negations on the way. -/
def divideOut (term : Expr) (powers : Powers) : Expr :=
  let remains := term.strike powers
  let product := gather .product remains.left
  let quotient := if product.isEmpty then integer 1 else product
  if remains.negated then negation quotient else quotient

end Expr

/-- A sum written as `factor * cofactor + remainder`. -/
structure Factorization where
  factor : Expr
  cofactor : Expr
  remainder : Expr

/-- The sum that a factorization stands for. -/
def Factorization.expr (f : Factorization) : Expr :=
  .gather .sum [.join .product f.factor f.cofactor, f.remainder]

namespace Expr

/-- Which of the terms have the given factor. -/
def sharing (factor : Expr) (terms : List Expr) : List Bool :=
  terms.map fun term => term.factors.contains factor

/-- The terms at the places that are marked. -/
def marked (terms : List Expr) (marks : List Bool) : List Expr :=
  ((terms.zip marks).filter (·.2)).map (·.1)

/-- How often a factor occurs at least in each of the terms. -/
def commonExponent (terms : List Expr) (factor : Expr) : Nat :=
  ((terms.map fun term => term.factors.count factor).min?).getD 0

/-- The factorization of a sum of terms by factors that the marked terms, and only those, share. -/
def factorOut (terms : List Expr) (marks : List Bool) (shared : List Expr) : Factorization :=
  let containing := marked terms marks
  let powers : Powers := shared.map fun factor => (factor, commonExponent containing factor)
  { factor := gather .product powers.elements
    cofactor := gather .sum (containing.map fun term => term.divideOut powers)
    remainder := gather .sum (marked terms (marks.map (!·))) }

/-- The factorizations of a sum of terms, in the order in which the factors are met. Factors of
exactly the same terms are taken out together. -/
def factorizationsOf (terms : List Expr) : List Factorization :=
  let candidates := (factorsAll terms).eraseDups.map fun factor => (factor, sharing factor terms)
  (candidates.map (·.2)).eraseDups.map fun marks =>
    factorOut terms marks ((candidates.filter (·.2 == marks)).map (·.1))

/-- The factorizations of an expression. Only a sum has any. -/
def factorizations : Expr → List Factorization
  | sum a b rest => factorizationsOf (a :: b :: rest)
  | _ => []

end Expr

end TermAlgebra
