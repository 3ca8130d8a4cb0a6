import Mathlib.Tactic
import TermAlgebra.Proofs.Constancy

/-!
# Renaming variables

Every pass of simplification commutes with renaming the variables of an expression.

`Expr.rename` changes the names of the variables and nothing else, so measures and kinds of nodes
stay the same, and the passes that only move terms around do the same to renamed ones
(`flatten_rename`, `expand_rename` and `foldConstants_rename`).  Factoring compares expressions, so
from there on the renaming has to be injective: renamed expressions agree exactly if the original
ones do (`beq_rename`), equal factors are then found in the same places and in the same order
(`factorizationsOf_rename`), and collecting comes to the renamed form (`collect_rename`).
-/

namespace TermAlgebra

namespace Expr

variable (s : String → String)

/-! ### Renamed expressions -/

mutual

/-- The expression with its variables renamed. -/
def rename : Expr → Expr
  | var name => var (s name)
  | negation e => negation (rename e)
  | nary op a b rest => nary op (rename a) (rename b) (renameAll rest)
  | division l r => division (rename l) (rename r)
  | parentheses e => parentheses (rename e)
  | e => e

/-- All the expressions with their variables renamed. -/
def renameAll : List Expr → List Expr
  | [] => []
  | e :: es => rename e :: renameAll es

end

/-- The list is renamed item by item. -/
lemma renameAll_eq_map (es : List Expr) : renameAll s es = es.map (rename s) := by
  induction es with
  | nil => rfl
  | cons e es ih => rw [renameAll, ih, List.map_cons]

/-- A renamed node has the renamed terms. -/
lemma rename_nary (op : AssocOp) (a b : Expr) (rest : List Expr) :
    rename s (nary op a b rest) = nary op (rename s a) (rename s b) (rest.map (rename s)) := by
  rw [rename, renameAll_eq_map]

@[simp] lemma rename_ofNumber (n : Number) : rename s (ofNumber n) = ofNumber n := by
  cases n <;> rfl

@[simp] lemma constant?_rename (e : Expr) : (rename s e).constant? = e.constant? := by
  cases e <;> rfl

@[simp] lemma isConstant_rename (e : Expr) : (rename s e).isConstant = e.isConstant := by
  cases e <;> rfl

@[simp] lemma isEmpty_rename (e : Expr) : (rename s e).isEmpty = e.isEmpty := by
  cases e <;> rfl

@[simp] lemma isNary_rename (op : AssocOp) (e : Expr) :
    (rename s e).isNary op = e.isNary op := by
  cases e <;> rfl

@[simp] lemma isDivision_rename (e : Expr) : (rename s e).isDivision = e.isDivision := by
  cases e <;> rfl

@[simp] lemma isWhole_rename (e : Expr) : (rename s e).isWhole = e.isWhole := by
  cases e with
  | nary op a b rest => cases op <;> rfl
  | _ => rfl

/-- Renaming keeps the kinds of the nodes. -/
@[simp] lemma consistsOf_rename (p : NodeKind → Bool) (e : Expr) :
    (rename s e).consistsOf p = e.consistsOf p := by
  induction e using Expr.induction with
  | nary op a b rest ih =>
    rw [Bool.eq_iff_iff, rename_nary, consistsOf_nary, consistsOf_nary, ← List.map_cons,
      ← List.map_cons, List.forall_mem_map]
    exact and_congr_right fun _ => forall₂_congr fun t ht => by rw [ih t ht]
  | negation e ih => rw [rename, consistsOf, consistsOf, ih]
  | division l r hl hr => rw [rename, consistsOf, consistsOf, hl, hr]
  | parentheses e ih => rw [rename, consistsOf, consistsOf, ih]
  | _ => rfl

/-- Renamed expressions are as complicated as the original ones. -/
@[simp] lemma complexity_rename (e : Expr) : (rename s e).complexity = e.complexity := by
  induction e using Expr.induction with
  | nary op a b rest ih =>
    simp only [List.forall_mem_cons] at ih
    have hrest : rest.map (complexity ∘ rename s) = rest.map complexity :=
      List.map_congr_left ih.2.2
    rw [rename_nary, complexity, complexity, ih.1, ih.2.1, complexityAll_eq_sum,
      complexityAll_eq_sum, List.map_map, hrest, List.length_map]
  | negation e ih => rw [rename, complexity, complexity, ih]
  | division l r hl hr => rw [rename, complexity, complexity, hl, hr]
  | parentheses e ih => rw [rename, complexity, complexity, ih]
  | _ => rfl

/-- They have as many nodes that are no constants. -/
@[simp] lemma openSize_rename (e : Expr) : (rename s e).openSize = e.openSize := by
  induction e using Expr.induction with
  | nary op a b rest ih =>
    simp only [List.forall_mem_cons] at ih
    have hrest : rest.map (openSize ∘ rename s) = rest.map openSize :=
      List.map_congr_left ih.2.2
    rw [rename_nary, openSize, openSize, ih.1, ih.2.1, openSizeAll_eq_sum, openSizeAll_eq_sum,
      List.map_map, hrest]
  | negation e ih => rw [rename, openSize, openSize, ih]
  | division l r hl hr => rw [rename, openSize, openSize, hl, hr]
  | parentheses e ih => rw [rename, openSize, openSize, ih]
  | _ => rfl

/-- Renamed expressions can be written exactly if the original ones can. -/
@[simp] lemma isWritable_rename (e : Expr) : (rename s e).isWritable = e.isWritable := by
  induction e using Expr.induction with
  | nary op a b rest ih =>
    rw [Bool.eq_iff_iff, rename_nary, isWritable_nary_iff, isWritable_nary_iff, ← List.map_cons,
      ← List.map_cons, List.forall_mem_map]
    exact forall₂_congr fun t ht => by rw [ih t ht]
  | negation e ih => rw [rename, isWritable, isWritable, ih]
  | division l r hl hr => rw [rename, isWritable, isWritable, hl, hr]
  | parentheses e ih => rw [rename, isWritable, isWritable, ih]
  | _ => rfl

/-! ### Terms -/

/-- The terms of a renamed operand are the renamed terms. -/
lemma terms_rename (op : AssocOp) (e : Expr) :
    (rename s e).terms op = (e.terms op).map (rename s) := by
  rcases eq_nary_or_not_isNary op e with ⟨a, b, rest, rfl⟩ | hnot
  · rw [rename_nary, terms_nary, terms_nary, List.map_cons, List.map_cons]
  · have hnot' : (rename s e).isNary op = false := (isNary_rename s op e).trans hnot
    rw [terms_of_not_isNary hnot, terms_of_not_isNary hnot', List.map_singleton]

/-- The same for several operands. -/
lemma merged_rename (op : AssocOp) (es : List Expr) :
    merged op (es.map (rename s)) = (merged op es).map (rename s) := by
  rw [merged, merged, List.flatMap_map, List.map_flatMap]
  exact List.flatMap_congr fun e _ => terms_rename s op e

/-- Renamed terms make a renamed node. -/
lemma ofTerms_rename (op : AssocOp) (es : List Expr) :
    ofTerms op (es.map (rename s)) = rename s (ofTerms op es) := by
  match es with
  | [] => rfl
  | [e] => rfl
  | a :: b :: rest => exact (rename_nary s op a b rest).symm

/-- Renamed terms are gathered into a renamed expression. -/
lemma gather_rename (op : AssocOp) (es : List Expr) :
    gather op (es.map (rename s)) = rename s (gather op es) := by
  have hempty : (fun e : Expr => !e.isEmpty) ∘ rename s = fun e : Expr => !e.isEmpty :=
    funext fun e => congrArg not (isEmpty_rename s e)
  rw [gather, gather, List.filter_map, hempty, ofTerms_rename]

/-- Renamed operands are joined to a renamed expression. -/
lemma join_rename (op : AssocOp) (a b : Expr) :
    join op (rename s a) (rename s b) = rename s (join op a b) := by
  rw [join, join, terms_rename, terms_rename, ← List.map_append, ofTerms_rename]

/-! ### Passes that move terms -/

/-- Flattening commutes with renaming. -/
lemma flatten_rename (e : Expr) : (rename s e).flatten = rename s e.flatten := by
  induction e using Expr.induction with
  | nary op a b rest ih =>
    have hterms : ((a :: b :: rest).map (rename s)).map flatten =
        ((a :: b :: rest).map flatten).map (rename s) := by
      rw [List.map_map, List.map_map]
      exact List.map_congr_left ih
    rw [rename_nary, flatten, flatten, flattenAll_eq_map, flattenAll_eq_map]
    simp only [← List.map_cons]
    rw [hterms, merged_rename, gather_rename]
  | negation e ih => rw [rename, flatten, flatten, rename, ih]
  | division l r hl hr => rw [rename, flatten, flatten, rename, hl, hr]
  | parentheses e ih => rw [rename, flatten, flatten, ih]
  | _ => rfl

/-- The choices of terms from renamed factors are the renamed choices. -/
lemma choices_rename (fs : List Expr) :
    choices (fs.map (rename s)) = (choices fs).map (List.map (rename s)) := by
  induction fs with
  | nil => rfl
  | cons f fs ih =>
    rw [List.map_cons, choices, choices, ih, List.flatMap_map, List.map_flatMap]
    refine List.flatMap_congr fun others _ => ?_
    rw [terms_rename, List.map_map, List.map_map]
    rfl

/-- Distributing renamed factors gives the renamed sum. -/
lemma distribute_rename (fs : List Expr) :
    distribute (fs.map (rename s)) = rename s (distribute fs) := by
  rw [distribute, distribute, choices_rename, List.map_map, ← gather_rename, List.map_map]
  refine congrArg _ (List.map_congr_left fun choice _ => ?_)
  exact (congrArg _ (merged_rename s .product choice)).trans (gather_rename s .product _)

/-- Expanding commutes with renaming. -/
lemma expand_rename (e : Expr) : (rename s e).expand = rename s e.expand := by
  induction e using Expr.induction with
  | nary op a b rest ih =>
    have hterms : (rename s a :: rename s b :: rest.map (rename s)).map expand =
        ((a :: b :: rest).map expand).map (rename s) := by
      rw [← List.map_cons, ← List.map_cons, List.map_map, List.map_map]
      exact List.map_congr_left ih
    rw [rename_nary]
    cases op with
    | sum => rw [expand_sum, expand_sum, hterms, merged_rename, gather_rename]
    | product => rw [expand_product, expand_product, hterms, distribute_rename]
  | negation e ih =>
    rw [rename, expand, expand, ih]
    exact distribute_rename s [integer (-1), e.expand]
  | division l r hl hr => rw [rename, expand, expand, rename, hl, hr]
  | parentheses e ih => rw [rename, expand, expand, ih]
  | _ => rfl

/-! ### Folding -/

/-- Folding renamed terms gives the renamed result. -/
lemma gatherFolded_rename (op : AssocOp) (terms : List Expr) :
    gatherFolded op (terms.map (rename s)) = rename s <$> gatherFolded op terms := by
  have hconstant : constant? ∘ rename s = constant? := funext (constant?_rename s)
  have hother : (fun e : Expr => !e.isConstant) ∘ rename s = fun e : Expr => !e.isConstant :=
    funext fun e => congrArg not (isConstant_rename s e)
  unfold gatherFolded
  rw [List.filterMap_map, List.filter_map, hconstant, hother, map_bind]
  refine bind_congr fun constant => ?_
  dsimp only
  rw [map_pure, ← gather_rename, List.map_append, List.isEmpty_map]
  refine congrArg pure (congrArg (gather op) (congrArg (· ++ _) ?_))
  split
  · rfl
  · cases constant with
    | none => rfl
    | some n => exact congrArg (fun c => [c]) (rename_ofNumber s n).symm

/-- Folding renamed operands gives the renamed result. -/
lemma foldTerms_rename (op : AssocOp) (operands : List Expr) :
    foldTerms op (operands.map (rename s)) = rename s <$> foldTerms op operands := by
  have hzero : ((merged op operands).map (rename s)).any isZeroConstant =
      (merged op operands).any isZeroConstant := by
    rw [List.any_map]
    refine congrArg (List.any _) (funext fun e => ?_)
    rw [Function.comp_apply, isZeroConstant, constant?_rename, isZeroConstant]
  unfold foldTerms
  rw [merged_rename]
  dsimp only
  rw [hzero]
  split
  · rfl
  · exact gatherFolded_rename s op _

/-- Renamed quotients reduce to the same constants. -/
lemma reduceQuotient?_rename (l r : Expr) :
    reduceQuotient? (rename s l) (rename s r) = reduceQuotient? l r := by
  cases l <;> cases r <;> rfl

/-- Reducing renamed quotients gives the renamed result. -/
lemma reduceQuotient_rename (l r : Expr) :
    reduceQuotient (rename s l) (rename s r) = rename s <$> reduceQuotient l r := by
  rw [reduceQuotient, reduceQuotient, reduceQuotient?_rename]
  cases hquotient : reduceQuotient? l r with
  | error fault => rfl
  | ok quotient =>
    cases quotient with
    | none => rfl
    | some c => rcases reduceQuotient?_eq_some hquotient with ⟨n, rfl⟩ | ⟨d, d', rfl, -⟩ <;> rfl

/-- Folding constants commutes with renaming. -/
lemma foldConstants_rename (e : Expr) :
    (rename s e).foldConstants = rename s <$> e.foldConstants := by
  induction e using Expr.induction with
  | nary op a b rest ih =>
    simp only [List.forall_mem_cons] at ih
    have hrest := Outcome.mapM_map_eq ih.2.2
    rw [rename_nary, foldConstants, foldConstants, foldConstantsAll_eq_mapM,
      foldConstantsAll_eq_mapM, ih.1, ih.2.1, hrest]
    simp only [bind_map_left, map_bind, ← foldTerms_rename, List.map_cons]
  | negation e ih =>
    rw [rename, foldConstants, foldConstants, ih, bind_map_left, map_bind]
    exact bind_congr fun e => foldTerms_rename s .product [integer (-1), e]
  | division l r hl hr =>
    rw [rename, foldConstants, foldConstants, hl, hr]
    simp only [bind_map_left, map_bind, reduceQuotient_rename]
  | parentheses e ih => rw [rename, foldConstants, foldConstants, ih]
  | _ => rfl

/-! ### Factors -/

/-- The factors of a renamed term are the renamed factors. -/
lemma factors_rename (e : Expr) : (rename s e).factors = e.factors.map (rename s) := by
  induction e using inductionOnFactors with
  | negation e ih => rw [rename, factors, factors, ih]
  | product a b rest ih =>
    rw [rename_nary, factors_product, factors_product, ← List.map_cons, ← List.map_cons,
      factorsAll_eq_flatMap, factorsAll_eq_flatMap, List.flatMap_map, List.map_flatMap,
      List.flatMap_congr ih]
  | whole e he =>
    rw [factors_of_isWhole he, factors_of_isWhole ((isWhole_rename s e).trans he),
      isEmpty_rename, isConstant_rename]
    split <;> rfl

/-- The same for several terms. -/
lemma factorsAll_rename (es : List Expr) :
    factorsAll (es.map (rename s)) = (factorsAll es).map (rename s) := by
  rw [factorsAll_eq_flatMap, factorsAll_eq_flatMap, List.flatMap_map, List.map_flatMap]
  exact List.flatMap_congr fun e _ => factors_rename s e

/-- The terms at marked places of a renamed list are the renamed ones. -/
lemma marked_rename (es : List Expr) (marks : List Bool) :
    marked (es.map (rename s)) marks = (marked es marks).map (rename s) := by
  rw [marked, marked, List.zip_map_left, List.filter_map, List.map_map, List.map_map]
  rfl

/-- Powers with their bases renamed. -/
def renamePowers (powers : Powers) : Powers :=
  powers.map fun (base, exponent) => (rename s base, exponent)

/-- What remains of a term, renamed. -/
def Remains.rename (remains : Remains) : Remains :=
  ⟨remains.left.map (Expr.rename s), renamePowers s remains.powers, remains.negated⟩

/-- The elements of renamed powers are the renamed elements. -/
lemma elements_renamePowers (powers : Powers) :
    (renamePowers s powers).elements = powers.elements.map (rename s) := by
  rw [Powers.elements, Powers.elements, renamePowers, List.flatMap_map, List.map_flatMap]
  exact List.flatMap_congr fun power _ => List.map_replicate.symm

section Injective

variable {s} (hs : Function.Injective s)

include hs

omit hs in
/-- Renamed lists agree exactly if the original ones do when this is so for their items. -/
lemma agreesAll_rename {es : List Expr}
    (h : ∀ e ∈ es, ∀ f, agrees (rename s e) (rename s f) = agrees e f) (fs : List Expr) :
    agreesAll (es.map (rename s)) (fs.map (rename s)) = agreesAll es fs := by
  induction es generalizing fs with
  | nil => cases fs <;> rfl
  | cons e es ih =>
    rw [List.forall_mem_cons] at h
    cases fs with
    | nil => rfl
    | cons f fs => rw [List.map_cons, List.map_cons, agreesAll, agreesAll, h.1, ih h.2]

/-- Renamed expressions agree exactly if the original ones do. -/
lemma beq_rename (e f : Expr) : (rename s e == rename s f) = (e == f) := by
  change agrees (rename s e) (rename s f) = agrees e f
  induction e using Expr.induction generalizing f with
  | var name => cases f <;> simp [rename, agrees, hs.eq_iff]
  | nary op a b rest ih =>
    simp only [List.forall_mem_cons] at ih
    cases f with
    | nary op' a' b' rest' =>
      rw [rename_nary, rename_nary, agrees, agrees, ih.1, ih.2.1, agreesAll_rename ih.2.2]
    | _ => simp [rename, agrees]
  | negation e ih => cases f <;> simp [rename, agrees, ih]
  | division l r hl hr => cases f <;> simp [rename, agrees, hl, hr]
  | parentheses e ih => cases f <;> simp [rename, agrees, ih]
  | _ => cases f <;> simp [rename, agrees]

/-- Repetitions are found in the same places. -/
lemma eraseDups_rename (es : List Expr) :
    (es.map (rename s)).eraseDups = es.eraseDups.map (rename s) := by
  induction hn : es.length using Nat.strong_induction_on generalizing es with
  | _ n ih =>
    cases es with
    | nil => rfl
    | cons e es =>
      have hlt : (es.filter fun b => !b == e).length < n := by
        rw [← hn, List.length_cons]
        exact Nat.lt_succ_of_le (List.length_filter_le _ es)
      have hsame : (fun b => !b == rename s e) ∘ rename s = fun b => !b == e :=
        funext fun b => congrArg not (beq_rename hs b e)
      rw [List.map_cons, List.eraseDups_cons, List.eraseDups_cons, List.filter_map, hsame,
        ih _ hlt _ rfl, List.map_cons]

/-- A factor occurs as often among renamed factors. -/
lemma count_rename (e : Expr) (es : List Expr) :
    (es.map (rename s)).count (rename s e) = es.count e := by
  rw [List.count, List.count, List.countP_map]
  exact congrArg (List.countP · es) (funext fun f => beq_rename hs f e)

/-- The same terms share a factor. -/
lemma sharing_rename (f : Expr) (es : List Expr) :
    sharing (rename s f) (es.map (rename s)) = sharing f es := by
  rw [sharing, sharing, List.map_map]
  refine List.map_congr_left fun t _ => ?_
  rw [Function.comp_apply, factors_rename, List.contains_eq_any_beq, List.contains_eq_any_beq,
    List.any_map]
  exact congrArg (List.any _) (funext fun g => beq_rename hs f g)

/-- A factor is common to renamed terms in the same power. -/
lemma commonExponent_rename (es : List Expr) (f : Expr) :
    commonExponent (es.map (rename s)) (rename s f) = commonExponent es f := by
  rw [commonExponent, commonExponent, List.map_map]
  refine congrArg (fun exponents => (List.min? exponents).getD 0) ?_
  refine List.map_congr_left fun t _ => ?_
  rw [Function.comp_apply, factors_rename, count_rename hs]

/-- A factor is taken from renamed powers as from the original ones. -/
lemma take?_rename (e : Expr) (powers : Powers) :
    (renamePowers s powers).take? (rename s e) = (powers.take? e).map (renamePowers s) := by
  induction powers with
  | nil => rfl
  | cons power powers ih =>
    obtain ⟨b, n⟩ := power
    change Powers.take? (rename s e) ((rename s b, n) :: renamePowers s powers) = _
    rw [Powers.take?_cons, Powers.take?_cons, beq_rename hs]
    split
    · cases n <;> rfl
    · rw [ih, Option.map_map, Option.map_map]
      rfl

omit hs in
/-- Powers are taken out of renamed terms as out of the original ones. -/
lemma strikeAll_rename {es : List Expr} (h : ∀ e ∈ es, ∀ powers : Powers,
    (rename s e).strike (renamePowers s powers) = (e.strike powers).rename s) (powers : Powers) :
    strikeAll (es.map (rename s)) (renamePowers s powers) = (strikeAll es powers).rename s := by
  induction es generalizing powers with
  | nil => rfl
  | cons e es ih =>
    rw [List.forall_mem_cons] at h
    have hrest := ih h.2 (e.strike powers).powers
    rw [List.map_cons, strikeAll, strikeAll, h.1]
    simp only [Remains.append, Remains.rename, List.map_append] at hrest ⊢
    rw [hrest]

/-- The same for one term. -/
lemma strike_rename (e : Expr) (powers : Powers) :
    (rename s e).strike (renamePowers s powers) = (e.strike powers).rename s := by
  induction e using inductionOnFactors generalizing powers with
  | negation e ih =>
    rw [rename, strike, strike, ih]
    rfl
  | product a b rest ih =>
    rw [rename_nary, strike_product, strike_product, ← List.map_cons, ← List.map_cons]
    exact strikeAll_rename ih powers
  | whole e he =>
    rw [strike_of_isWhole he, strike_of_isWhole ((isWhole_rename s e).trans he),
      take?_rename hs]
    cases powers.take? e <;> rfl

/-- A renamed term is divided by renamed powers. -/
lemma divideOut_rename (t : Expr) (powers : Powers) :
    (rename s t).divideOut (renamePowers s powers) = rename s (t.divideOut powers) := by
  unfold divideOut
  rw [strike_rename hs]
  simp only [Remains.rename, gather_rename, isEmpty_rename]
  split <;> split <;> rfl

end Injective

end Expr

/-! ### Factorizations -/

/-- A factorization with its variables renamed. -/
def Factorization.rename (s : String → String) (F : Factorization) : Factorization :=
  ⟨F.factor.rename s, F.cofactor.rename s, F.remainder.rename s⟩

namespace Expr

section Injective

variable {s : String → String} (hs : Function.Injective s)

include hs

/-- Renamed factors are taken out of renamed terms. -/
lemma factorOut_rename (es : List Expr) (marks : List Bool) (shared : List Expr) :
    factorOut (es.map (rename s)) marks (shared.map (rename s)) =
      (factorOut es marks shared).rename s := by
  have hpowers : ((shared.map (rename s)).map fun factor =>
      (factor, commonExponent ((marked es marks).map (rename s)) factor)) =
      renamePowers s (shared.map fun factor =>
        (factor, commonExponent (marked es marks) factor)) := by
    rw [renamePowers, List.map_map, List.map_map]
    exact List.map_congr_left fun f _ => congrArg _ (commonExponent_rename hs _ f)
  have hcofactors : ∀ powers : Powers, ((marked es marks).map (rename s)).map
      (fun t => t.divideOut (renamePowers s powers)) =
      ((marked es marks).map fun t => t.divideOut powers).map (rename s) := by
    intro powers
    rw [List.map_map, List.map_map]
    exact List.map_congr_left fun t _ => divideOut_rename hs t powers
  unfold factorOut
  simp only [marked_rename]
  rw [hpowers, hcofactors, elements_renamePowers, gather_rename, gather_rename, gather_rename]
  rfl

/-- The factorizations of renamed terms are the renamed factorizations, in the same order. -/
lemma factorizationsOf_rename (es : List Expr) :
    factorizationsOf (es.map (rename s)) =
      (factorizationsOf es).map (Factorization.rename s) := by
  unfold factorizationsOf
  rw [factorsAll_rename, eraseDups_rename hs]
  simp only [List.map_map, Function.comp_def, sharing_rename hs, List.filter_map]
  refine List.map_congr_left fun marks _ => ?_
  rw [factorOut_rename hs, List.map_id']

/-! ### Collecting -/

omit hs in
/-- Of renamed expressions the simplest one stands in the same place. -/
lemma simplestOf_rename (first : Expr) (others : List Expr) :
    simplestOf (rename s first) (others.map (rename s)) = rename s (simplestOf first others) := by
  induction others generalizing first with
  | nil => rfl
  | cons e others ih =>
    have hstep : ∀ best : Expr, simplestOf best (e :: others) =
        simplestOf (if e.complexity < best.complexity then e else best) others := fun _ => rfl
    rw [List.map_cons, simplestOf, List.foldl_cons, ← simplestOf, hstep, complexity_rename,
      complexity_rename, ← ih]
    split <;> rfl

variable {again : Expr → Except Fault Expr}
  (hagain : ∀ e, again (rename s e) = rename s <$> again e)

include hagain

omit hs in
/-- A renamed factorization is recollected to the renamed sum. -/
lemma recollect_rename (F : Factorization) :
    recollect again (F.rename s) = rename s <$> recollect again F := by
  have hexpr : ∀ cofactor remainder, Factorization.expr ⟨F.factor.rename s, rename s cofactor,
      rename s remainder⟩ = rename s (Factorization.expr ⟨F.factor, cofactor, remainder⟩) := by
    intro cofactor remainder
    rw [Factorization.expr, Factorization.expr, join_rename, ← gather_rename]
    rfl
  unfold recollect
  simp only [Factorization.rename, hagain, bind_map_left, map_bind, hexpr, foldConstants_rename]

omit hagain in
/-- The same factorizations of a renamed sum are tried. -/
lemma usefulFactorizations_rename (terms : List Expr) :
    usefulFactorizations (terms.map (rename s)) =
      (usefulFactorizations terms).map (Factorization.rename s) := by
  rw [usefulFactorizations, usefulFactorizations, factorizationsOf_rename hs, List.filter_map]
  refine congrArg _ (congrArg (List.filter · _) (funext fun F => ?_))
  exact isNary_rename s .sum F.cofactor

/-- The simplest form of a renamed sum is the renamed one. -/
lemma collectSum_rename (terms collected : List Expr) :
    collectSum again (terms.map (rename s)) (collected.map (rename s)) =
      rename s <$> collectSum again terms collected := by
  have hcandidates : ((usefulFactorizations terms).map (Factorization.rename s)).mapM
      (recollect again) =
        List.map (rename s) <$> (usefulFactorizations terms).mapM (recollect again) :=
    Outcome.mapM_map_eq fun F _ => recollect_rename hagain F
  rw [collectSum_eq, collectSum_eq, gather_rename, foldConstants_rename,
    usefulFactorizations_rename hs, hcandidates]
  simp only [bind_map_left, map_bind, map_pure, simplestOf_rename]

/-- Collecting commutes with renaming if the treatment of the parts of a factored sum does. -/
lemma collectWith_rename (e : Expr) :
    collectWith again (rename s e) = rename s <$> collectWith again e := by
  induction e using Expr.induction with
  | nary op a b rest ih =>
    simp only [List.forall_mem_cons] at ih
    have hrest := Outcome.mapM_map_eq ih.2.2
    rw [rename_nary]
    cases op with
    | sum =>
      rw [collectWith, collectWith, collectAllWith_eq_mapM, collectAllWith_eq_mapM, ih.1, ih.2.1,
        hrest]
      simp only [bind_map_left, map_bind, ← List.map_cons, collectSum_rename hs hagain]
    | product =>
      rw [collectWith, collectWith, collectAllWith_eq_mapM, collectAllWith_eq_mapM, ih.1, ih.2.1,
        hrest]
      simp only [bind_map_left, map_bind, map_pure, ← List.map_cons, merged_rename, gather_rename]
  | negation e ih =>
    rw [rename, collectWith, collectWith, ih]
    simp only [Functor.map_map, rename]
  | division l r hl hr =>
    rw [rename, collectWith, collectWith, hl, hr]
    simp only [bind_map_left, map_bind, map_pure, rename]
  | parentheses e ih => rw [rename, collectWith, collectWith, ih]
  | _ => rfl

omit hagain in
/-- Collecting up to a size commutes with renaming. -/
lemma collectUpTo_rename (size : ℕ) (e : Expr) :
    collectUpTo size (rename s e) = rename s <$> collectUpTo size e := by
  induction size generalizing e with
  | zero => rfl
  | succ size ih => exact collectWith_rename hs ih e

omit hagain in
/-- Collecting commutes with renaming. -/
lemma collect_rename (e : Expr) : (rename s e).collect = rename s <$> e.collect := by
  rw [collect, collect, openSize_rename, collectUpTo_rename hs]

end Injective

end Expr

end TermAlgebra
