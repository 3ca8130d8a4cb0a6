import Mathlib.Tactic
import TermAlgebra.Proofs.Passes
import TermAlgebra.Simplify.Labels

/-!
# Labelling

Labelling replaces undefined constants by undefined constants and nothing else
(`labelled_induction`).  So it is a rewriting (`rewrites_labelled`), and it leaves expressions
without decimals as they are (`labelled_of_isExact`).
-/

namespace TermAlgebra.Expr

variable {R : Expr → Expr → Prop}

/-- A constant is kept, or is undefined and gets another label. -/
lemma labelConstant_cases (depth base : ℕ) (d : Decimal) (next : ℕ) :
    ((labelConstant depth base d).run next).1 = decimal d ∨ ∃ label label',
      d = .undefined label ∧
        ((labelConstant depth base d).run next).1 = decimal (.undefined label') := by
  cases d with
  | undefined label =>
    right
    cases label with
    | unlabelled => exact ⟨_, _, rfl, rfl⟩
    | given number => exact ⟨_, _, rfl, rfl⟩
    | calculated earlier number =>
      by_cases h : earlier < depth
      · exact ⟨_, .calculated depth (base + number), rfl, by rw [labelConstant, if_pos h]; rfl⟩
      · exact ⟨_, .calculated earlier number, rfl, by rw [labelConstant, if_neg h]; rfl⟩
  | finite negative rank h => exact Or.inl rfl
  | infinite negative => exact Or.inl rfl

/-- A side is undefined and gets another label, or it is labelled within. -/
lemma labelSide_cases (depth : ℕ) (base? : Option ℕ) (label : ℕ → StateM ℕ Expr) (side : Expr)
    (next : ℕ) :
    (∃ l l', side = decimal (.undefined l) ∧
        ((labelSide depth base? label side).run next).1 = decimal (.undefined l')) ∨
      ∃ base next', ((labelSide depth base? label side).run next).1 =
        ((label base).run next').1 := by
  unfold labelSide
  by_cases h : side.isUndefined = true
  · obtain ⟨l, rfl⟩ : ∃ l, side = decimal (.undefined l) := by
      cases side with
      | decimal d =>
        cases d with
        | undefined l => exact ⟨l, rfl⟩
        | _ => exact Bool.noConfusion h
      | _ => exact Bool.noConfusion h
    exact Or.inl ⟨l, _, rfl, rfl⟩
  · simp only [h]
    exact Or.inr ⟨_, _, rfl⟩

/-- What relates undefined constants to each other, and nodes whose parts are related, relates an
expression to the labelled one. The induction is on the expression, for all numbers in use. -/
theorem labelled_induction (refl : ∀ e, R e e)
    (label : ∀ l l', R (decimal (.undefined l)) (decimal (.undefined l')))
    (negation : ∀ e e', R e e' → R (.negation e) (.negation e'))
    (nary : ∀ op a b rest es, List.Forall₂ R (a :: b :: rest) es →
      R (.nary op a b rest) (ofTerms op es))
    (division : ∀ l l' r r', R l l' → R r r' → R (.division l r) (.division l' r'))
    (depth : ℕ) (e : Expr) : R e (e.labelled depth) := by
  have hlabel : ∀ (e : Expr) (base? : Option ℕ) (next : ℕ),
      R e ((labelFrom depth base? e).run next).1 := by
    intro e
    induction e using Expr.induction with
    | decimal d =>
      intro base? next
      cases base? with
      | none => exact refl _
      | some base =>
        rcases labelConstant_cases depth base d next with h | ⟨l, l', rfl, h⟩
        · rw [labelFrom, h]
          exact refl _
        · rw [labelFrom, h]
          exact label l l'
    | negation e ih =>
      intro base? next
      exact negation _ _ (ih base? next)
    | nary op a b rest ih =>
      intro base? next
      have hall : ∀ (es : List Expr), (∀ t ∈ es, ∀ base? next,
          R t ((labelFrom depth base? t).run next).1) → ∀ next,
          List.Forall₂ R es ((labelAllFrom depth base? es).run next).1 := by
        intro es hes
        induction es with
        | nil => exact fun next => .nil
        | cons t es ihes =>
          intro next
          exact .cons (hes t List.mem_cons_self base? next)
            (ihes (fun t' ht' => hes t' (List.mem_cons_of_mem t ht')) _)
      exact nary op a b rest (_ :: _ :: _) (hall (a :: b :: rest) ih next)
    | division l r hl hr =>
      intro base? next
      have hside : ∀ side : Expr, (∀ base? next, R side ((labelFrom depth base? side).run next).1) →
          ∀ next, R side ((labelSide depth base?
            (fun base => labelFrom depth (some base) side) side).run next).1 := by
        intro side hside next
        rcases labelSide_cases depth base? (fun base => labelFrom depth (some base) side) side next
          with ⟨l, l', rfl, h⟩ | ⟨base, next', h⟩
        · rw [h]
          exact label l l'
        · rw [h]
          exact hside (some base) next'
      exact division _ _ _ _ (hside l hl next) (hside r hr _)
    | _ => exact fun base? next => refl _
  exact hlabel e none e.labelBound

/-- Labelling is a rewriting. -/
lemma rewrites_labelled (depth : ℕ) (e : Expr) : Rewrites e (e.labelled depth) :=
  labelled_induction .refl .label (fun _ _ => .negation) (fun op _ _ _ _ => .ofTerms op)
    (fun _ _ _ _ => .division) depth e

/-- Labelling leaves exact expressions as they are. -/
lemma labelled_of_isExact {e : Expr} (he : e.isExact = true) (depth : ℕ) :
    e.labelled depth = e := by
  refine labelled_induction (R := fun e e' => e.isExact = true → e' = e) (fun e _ => rfl)
    (fun l l' h => Bool.noConfusion h) ?_ ?_ ?_ depth e he
  · intro e e' ih h
    rw [ih ((hereditary_isExact.negation e).1 h)]
  · intro op a b rest es hes h
    rw [hereditary_isExact.nary] at h
    have hterms : List.Forall₂ (fun t t' => t = t') (a :: b :: rest) es :=
      forall₂_of_forall (fun t ht t' ih => (ih (h t ht)).symm) hes
    rw [List.forall₂_eq_eq_eq] at hterms
    exact hterms ▸ rfl
  · intro l l' r r' hl hr h
    rw [hl (isExact_division_iff.1 h).1, hr (isExact_division_iff.1 h).2]

end TermAlgebra.Expr
