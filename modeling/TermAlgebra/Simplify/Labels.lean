import TermAlgebra.Expr.Basic

/-!
# Labels of undefined values

An undefined value is equal to no other one, however alike the two were calculated, and a quotient
with an undefined side is equal to no other quotient. Only copies of one value are the same value,
and only copies of one quotient, as they arise when products are distributed over sums, are the same
quotient. Divisions are compared when common factors are looked for; so before that each undefined
value in a division is labelled. Main definition: `Expr.labelled`.

Labels are made of the depth of the divisions in the expression, and of a number. The sides of a
division are simplified on their own, where divisions are less deep, and one number may have been
used in several of them; labels of lesser depth are therefore moved, side by side, to numbers that
are not in use.
-/

namespace TermAlgebra

/-- A bound on the number in the label of a calculated value. -/
def Decimal.labelBound : Decimal → Nat
  | undefined (.calculated _ number) => number + 1
  | _ => 0

namespace Expr

/-- Whether the expression is an undefined constant. -/
def isUndefined : Expr → Bool
  | decimal d => d.isUndefined
  | _ => false

mutual

/-- A bound on the numbers in labels of calculated values. -/
def labelBound : Expr → Nat
  | decimal d => d.labelBound
  | negation e => labelBound e
  | nary _ a b rest => max (labelBound a) (max (labelBound b) (labelBoundAll rest))
  | division l r => max (labelBound l) (labelBound r)
  | parentheses e => labelBound e
  | _ => 0

/-- A bound on the numbers in labels of calculated values in any of the expressions. -/
def labelBoundAll : List Expr → Nat
  | [] => 0
  | e :: es => max (labelBound e) (labelBoundAll es)

end

/-- Takes the next `count` numbers into use, and gives the first of them. -/
def takeNumbers (count : Nat) : StateM Nat Nat :=
  modifyGet fun next => (next, next + count)

/-- An undefined constant that is told apart from all others. -/
def newUndefined (depth : Nat) : StateM Nat Expr := do
  return decimal (.undefined (.calculated depth (← takeNumbers 1)))

/-- A constant among the terms within a division. An undefined one without a label gets a new one.
A label of lesser depth, from the simplification of the side, is moved by `base`. -/
def labelConstant (depth base : Nat) : Decimal → StateM Nat Expr
  | .undefined .unlabelled => newUndefined depth
  | .undefined (.calculated earlier number) =>
    if earlier < depth then return decimal (.undefined (.calculated depth (base + number)))
    else return decimal (.undefined (.calculated earlier number))
  | d => return decimal d

/-- By how much labels of lesser depth in a side of a division are moved: as far as those in the
division around it, and past all numbers in use if there is none. -/
def labelBase (base? : Option Nat) (side : Expr) : StateM Nat Nat :=
  match base? with
  | some base => return base
  | none => takeNumbers side.labelBound

/-- A side of a division with labels, where `label` does the labelling within the side. A side that
is undefined itself always gets a new label, so that the division only agrees with its copies. -/
def labelSide (depth : Nat) (base? : Option Nat) (label : Nat → StateM Nat Expr) (side : Expr) :
    StateM Nat Expr := do
  if side.isUndefined then newUndefined depth else label (← labelBase base? side)

mutual

/-- The expression with labels for the undefined values in its divisions. There is a `base?` within
a division. -/
def labelFrom (depth : Nat) (base? : Option Nat) : Expr → StateM Nat Expr
  | decimal d =>
    match base? with
    | some base => labelConstant depth base d
    | none => return decimal d
  | negation e => do return negation (← labelFrom depth base? e)
  | nary op a b rest => do
    let a ← labelFrom depth base? a
    let b ← labelFrom depth base? b
    return nary op a b (← labelAllFrom depth base? rest)
  | division l r => do
    let left ← labelSide depth base? (fun base => labelFrom depth (some base) l) l
    return division left (← labelSide depth base? (fun base => labelFrom depth (some base) r) r)
  | e => return e

/-- All the expressions with labels for the undefined values in their divisions. -/
def labelAllFrom (depth : Nat) (base? : Option Nat) : List Expr → StateM Nat (List Expr)
  | [] => return []
  | e :: es => do
    let e ← labelFrom depth base? e
    return e :: (← labelAllFrom depth base? es)

end

/-- The expression with all undefined values in its divisions told apart, as far as they are no
copies of each other. The numbers that occur in it are in use. -/
def labelled (depth : Nat) (e : Expr) : Expr :=
  ((labelFrom depth none e).run e.labelBound).1

end Expr

end TermAlgebra
