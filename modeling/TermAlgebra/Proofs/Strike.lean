import Mathlib.Tactic
import TermAlgebra.Proofs.Value

/-!
# Striking factors out of a term

What is left of a term when powers have been struck out of its factors.

`Strikes` relates the term, the powers and what remains of both through the factors that are gone:
they are taken away from the factors of the term and from the powers alike, no factor is left over
whose power is not used up, and the value of the term is that of what is left times that of what is
gone, as is every other interpretation.  Striking always comes to such an end (`exists_strikes`).

Powers are well formed if no base is listed twice and every base is a factor without decimals.
-/

namespace TermAlgebra

namespace Expr

/-! ### Factors -/

/-- Whether an expression is neither a negation nor a product, so that it is taken as a whole where
factors are looked for. -/
def isWhole : Expr → Bool
  | negation _ => false
  | product .. => false
  | _ => true

/-- What is taken as a whole is no product. -/
lemma isNary_of_isWhole {e : Expr} (h : e.isWhole = true) : e.isNary .product = false := by
  cases e with
  | nary op a b rest =>
    cases op with
    | sum => rfl
    | product => exact Bool.noConfusion h
  | _ => rfl

/-- To prove a property of all terms it is enough to derive it for negations and products from
their parts, and to prove it for what is taken as a whole. -/
lemma inductionOnFactors {P : Expr → Prop} (negation : ∀ e, P e → P (negation e))
    (product : ∀ a b rest, (∀ t ∈ a :: b :: rest, P t) → P (product a b rest))
    (whole : ∀ e, e.isWhole = true → P e) (e : Expr) : P e := by
  induction e using Expr.induction with
  | negation e ih => exact negation e ih
  | nary op a b rest ih =>
    cases op with
    | sum => exact whole _ rfl
    | product => exact product a b rest ih
  | _ => exact whole _ rfl

/-- The factors of a product are those of its terms. -/
lemma factors_product (a b : Expr) (rest : List Expr) :
    (product a b rest).factors = factorsAll (a :: b :: rest) := rfl

/-- What is taken as a whole is its own factor, unless it is constant or empty. -/
lemma factors_of_isWhole {e : Expr} (h : e.isWhole = true) :
    e.factors = if e.isConstant || e.isEmpty then [] else [e] := by
  cases e with
  | negation e => simp [isWhole] at h
  | nary op a b rest =>
    cases op with
    | sum => rfl
    | product => simp [isWhole] at h
  | _ => rfl

/-- The factors of two lists of terms in a row. -/
lemma factorsAll_append (es fs : List Expr) :
    factorsAll (es ++ fs) = factorsAll es ++ factorsAll fs := by
  simp only [factorsAll_eq_flatMap, List.flatMap_append]

/-- The factors of a single term. -/
@[simp] lemma factorsAll_singleton (e : Expr) : factorsAll [e] = e.factors := by
  simp [factorsAll_eq_flatMap]

/-- A factor of some terms is a factor of one of them. -/
lemma mem_factorsAll {es : List Expr} {f : Expr} :
    f ∈ factorsAll es ↔ ∃ t ∈ es, f ∈ t.factors := by
  rw [factorsAll_eq_flatMap, List.mem_flatMap]

/-- A factor is its own only factor. -/
lemma factors_of_mem_factors {e f : Expr} (h : f ∈ e.factors) : f.factors = [f] := by
  induction e using inductionOnFactors with
  | negation e ih => exact ih h
  | product a b rest ih =>
    rw [factors_product, mem_factorsAll] at h
    obtain ⟨t, ht, hf⟩ := h
    exact ih t ht hf
  | whole e he =>
    have hfactors := factors_of_isWhole he
    split at hfactors
    · simp [hfactors] at h
    · rw [hfactors, List.mem_singleton] at h
      rw [h, hfactors]

/-- The factors of an expression have every hereditary property that it has. -/
lemma Hereditary.factors {Q : Expr → Prop} (hQ : Hereditary Q) {e : Expr} (he : Q e) :
    ∀ f ∈ e.factors, Q f := by
  intro f hf
  induction e using inductionOnFactors with
  | negation e ih => exact ih ((hQ.negation e).1 he) hf
  | product a b rest ih =>
    rw [factors_product, mem_factorsAll] at hf
    obtain ⟨t, ht, hf⟩ := hf
    exact ih t ht ((hQ.nary .product a b rest).1 he t ht) hf
  | whole e hwhole =>
    have hfactors := factors_of_isWhole hwhole
    split at hfactors
    · simp [hfactors] at hf
    · rw [hfactors, List.mem_singleton] at hf
      exact hf ▸ he

end Expr

/-! ### Powers -/

namespace Powers

/-- Powers are well formed if no base is listed twice and every base is a factor without
decimals. -/
structure WellFormed (powers : Powers) : Prop where
  nodup : (powers.map Prod.fst).Nodup
  isDecimalFree : ∀ b ∈ powers.map Prod.fst, b.isDecimalFree = true
  factors : ∀ b ∈ powers.map Prod.fst, b.factors = [b]

/-- The factors of the first power come first. -/
lemma elements_cons (b : Expr) (n : ℕ) (powers : Powers) :
    elements ((b, n) :: powers) = List.replicate n b ++ elements powers := rfl

/-- The factors of powers are bases. -/
lemma mem_bases_of_mem_elements {powers : Powers} {f : Expr} (h : f ∈ powers.elements) :
    f ∈ powers.map Prod.fst := by
  unfold elements at h
  rw [List.mem_flatMap] at h
  obtain ⟨⟨b, n⟩, hb, hf⟩ := h
  rw [List.eq_of_mem_replicate hf]
  exact List.mem_map_of_mem hb

/-- Without the first power the others are still well formed. -/
lemma WellFormed.tail {b : Expr} {n : ℕ} {powers : Powers}
    (hw : WellFormed ((b, n) :: powers)) : WellFormed powers where
  nodup := (List.nodup_cons.1 hw.nodup).2
  isDecimalFree f hf := hw.isDecimalFree f (List.mem_cons_of_mem b hf)
  factors f hf := hw.factors f (List.mem_cons_of_mem b hf)

/-- Whether powers are well formed depends on their bases only. -/
lemma WellFormed.congr {powers powers' : Powers}
    (h : powers'.map Prod.fst = powers.map Prod.fst) (hw : powers.WellFormed) :
    powers'.WellFormed where
  nodup := h ▸ hw.nodup
  isDecimalFree := h ▸ hw.isDecimalFree
  factors := h ▸ hw.factors

/-- A factor is taken from the first power with this base. -/
lemma take?_cons (f b : Expr) (n : ℕ) (powers : Powers) :
    take? f ((b, n) :: powers) =
      if b == f then
        match n with
        | 0 => none
        | n + 1 => some ((b, n) :: powers)
      else (take? f powers).map ((b, n) :: ·) := by
  cases n <;> rfl

/-- What cannot be taken from powers is not among their factors. -/
lemma not_mem_elements_of_take?_eq_none {powers : Powers} (hw : powers.WellFormed) {f : Expr}
    (h : take? f powers = none) : f ∉ powers.elements := by
  induction powers with
  | nil => simp [elements]
  | cons power powers ih =>
    obtain ⟨b, n⟩ := power
    have hb := hw.isDecimalFree b List.mem_cons_self
    rw [elements_cons, List.mem_append, not_or]
    rw [take?_cons] at h
    split at h
    · next hbf =>
      obtain rfl := (Expr.beq_iff_eq_of_isDecimalFree hb).1 hbf
      cases n with
      | zero =>
        exact ⟨by simp, fun hmem => (List.nodup_cons.1 hw.nodup).1 (mem_bases_of_mem_elements hmem)⟩
      | succ n => simp at h
    · next hbf =>
      refine ⟨fun hmem => hbf ?_, ih hw.tail (Option.map_eq_none_iff.1 h)⟩
      exact (Expr.beq_iff_eq_of_isDecimalFree hb).2 (List.eq_of_mem_replicate hmem).symm

/-- Taking a factor from powers keeps the bases and leaves the other factors. -/
lemma take?_eq_some {powers fewer : Powers} (hw : powers.WellFormed) {f : Expr}
    (h : take? f powers = some fewer) :
    fewer.map Prod.fst = powers.map Prod.fst ∧ powers.elements.Perm (f :: fewer.elements) := by
  induction powers generalizing fewer with
  | nil => simp [take?] at h
  | cons power powers ih =>
    obtain ⟨b, n⟩ := power
    have hb := hw.isDecimalFree b List.mem_cons_self
    rw [take?_cons] at h
    split at h
    · next hbf =>
      obtain rfl := (Expr.beq_iff_eq_of_isDecimalFree hb).1 hbf
      cases n with
      | zero => simp at h
      | succ n =>
        obtain rfl := Option.some.inj h
        exact ⟨rfl, by rw [elements_cons, elements_cons, List.replicate_succ]; rfl⟩
    · obtain ⟨others, hothers, rfl⟩ := Option.map_eq_some_iff.1 h
      obtain ⟨hbases, hperm⟩ := ih hw.tail hothers
      refine ⟨by rw [List.map_cons, List.map_cons, hbases], ?_⟩
      rw [elements_cons, elements_cons]
      exact (hperm.append_left _).trans List.perm_middle

end Powers

namespace Expr

/-! ### Striking -/

/-- What a sign multiplies by in an interpretation. -/
def signFactor {R : Type} [CommSemiring R] (sign : R) (negated : Bool) : R :=
  if negated then sign else 1

/-- Two signs are multiplied. -/
lemma Interprets.signFactor_xor {R : Type} [CommSemiring R] {sign : R} {g : Expr → R}
    (hg : Interprets sign g) (a b : Bool) :
    signFactor sign (a ^^ b) = signFactor sign a * signFactor sign b := by
  cases a <;> cases b <;> simp [signFactor, hg.sign_mul_sign]

/-- What remains of terms and powers when some factors have gone from both. -/
structure Strikes (es : List Expr) (powers : Powers) (remains : Remains) (gone : List Expr) :
    Prop where
  wellFormed : remains.powers.WellFormed
  factors : (factorsAll es).Perm (gone ++ factorsAll remains.left)
  powers : powers.elements.Perm (gone ++ remains.powers.elements)
  disjoint : ∀ f ∈ factorsAll remains.left, f ∉ remains.powers.elements
  interprets {R : Type} [CommSemiring R] {sign : R} {g : Expr → R} (hg : Interprets sign g) :
    (es.map g).prod =
      signFactor sign remains.negated * (remains.left.map g).prod * (gone.map g).prod

/-- Without terms nothing goes. -/
lemma strikes_nil {powers : Powers} (hw : powers.WellFormed) :
    Strikes [] powers ⟨[], powers, false⟩ [] where
  wellFormed := hw
  factors := .nil
  powers := .rfl
  disjoint f hf := by simp [factorsAll] at hf
  interprets _ := by simp [signFactor]

/-- What goes from two lists of terms, one after the other, goes from both in a row. -/
lemma Strikes.append {es es' gone gone' : List Expr} {powers : Powers} {first second : Remains}
    (h : Strikes es powers first gone) (h' : Strikes es' first.powers second gone') :
    Strikes (es ++ es') powers (first.append second) (gone ++ gone') where
  wellFormed := h'.wellFormed
  factors := by
    simp only [Remains.append, factorsAll_append]
    refine (h.factors.append h'.factors).trans ?_
    simp only [List.append_assoc]
    refine List.Perm.append_left gone ?_
    rw [← List.append_assoc, ← List.append_assoc]
    exact List.perm_append_comm.append_right _
  powers := by
    rw [Remains.append, List.append_assoc]
    exact h.powers.trans (h'.powers.append_left gone)
  disjoint := by
    simp only [Remains.append, factorsAll_append, List.mem_append]
    rintro f (hf | hf) hmem
    · exact h.disjoint f hf (h'.powers.mem_iff.2 (List.mem_append_right gone' hmem))
    · exact h'.disjoint f hf hmem
  interprets hg := by
    simp only [Remains.append, List.map_append, List.prod_append, h.interprets hg,
      h'.interprets hg, hg.signFactor_xor]
    ring

/-- Striking what is taken as a whole either removes it or leaves it. -/
lemma strike_of_isWhole {e : Expr} (h : e.isWhole = true) (powers : Powers) :
    e.strike powers =
      match powers.take? e with
      | some fewer => ⟨[], fewer, false⟩
      | none => ⟨[e], powers, false⟩ := by
  cases e with
  | negation e => simp [isWhole] at h
  | nary op a b rest =>
    cases op with
    | sum => rfl
    | product => simp [isWhole] at h
  | _ => rfl

/-- Striking a product is striking its terms. -/
lemma strike_product (a b : Expr) (rest : List Expr) (powers : Powers) :
    (product a b rest).strike powers = strikeAll (a :: b :: rest) powers := rfl

/-- What is taken as a whole goes if it is among the powers, and is left otherwise. -/
lemma exists_strikes_of_isWhole {e : Expr} (he : e.isWhole = true) {powers : Powers}
    (hw : powers.WellFormed) : ∃ gone, Strikes [e] powers (e.strike powers) gone := by
  rw [strike_of_isWhole he]
  cases htake : powers.take? e with
  | none =>
    refine ⟨[], hw, by simp, by simp, ?_, fun _ => by simp [signFactor]⟩
    intro f hf
    have hfe : f = e := by
      rw [factorsAll_singleton, factors_of_isWhole he] at hf
      split at hf
      · simp at hf
      · exact List.mem_singleton.1 hf
    rw [hfe]
    exact Powers.not_mem_elements_of_take?_eq_none hw htake
  | some fewer =>
    obtain ⟨hbases, hperm⟩ := Powers.take?_eq_some hw htake
    have hmem : e ∈ powers.elements := hperm.mem_iff.2 List.mem_cons_self
    refine ⟨[e], hw.congr hbases, ?_, hperm, by simp [factorsAll], fun _ => by simp [signFactor]⟩
    rw [factorsAll_singleton, hw.factors e (Powers.mem_bases_of_mem_elements hmem)]
    exact .rfl

/-- Something goes from a list of terms if this is so for each of them. -/
lemma exists_strikesAll {es : List Expr}
    (h : ∀ e ∈ es, ∀ powers : Powers, powers.WellFormed →
      ∃ gone, Strikes [e] powers (e.strike powers) gone)
    {powers : Powers} (hw : powers.WellFormed) :
    ∃ gone, Strikes es powers (strikeAll es powers) gone := by
  induction es generalizing powers with
  | nil => exact ⟨[], strikes_nil hw⟩
  | cons e es ih =>
    obtain ⟨gone, hgone⟩ := h e List.mem_cons_self powers hw
    obtain ⟨gone', hgone'⟩ :=
      ih (fun t ht => h t (List.mem_cons_of_mem e ht)) hgone.wellFormed
    exact ⟨gone ++ gone', hgone.append hgone'⟩

/-- Striking well-formed powers out of a term comes to an end in which the factors that are gone
account for the difference. -/
lemma exists_strikes (e : Expr) {powers : Powers} (hw : powers.WellFormed) :
    ∃ gone, Strikes [e] powers (e.strike powers) gone := by
  induction e using inductionOnFactors generalizing powers with
  | negation e ih =>
    obtain ⟨gone, h⟩ := ih hw
    refine ⟨gone, h.wellFormed, h.factors, h.powers, h.disjoint, fun hg => ?_⟩
    have hoperand := h.interprets hg
    simp only [List.map_singleton, List.prod_singleton] at hoperand ⊢
    rw [hg.negation, hoperand, strike]
    cases (e.strike powers).negated <;> simp [signFactor, ← mul_assoc, hg.sign_mul_sign]
  | product a b rest ih =>
    rw [strike_product]
    obtain ⟨gone, h⟩ := exists_strikesAll (fun t ht _ hpowers => ih t ht hpowers) hw
    refine ⟨gone, h.wellFormed, ?_, h.powers, h.disjoint, fun hg => ?_⟩
    · rw [factorsAll_singleton, factors_product]
      exact h.factors
    · rw [← h.interprets hg, List.map_singleton, List.prod_singleton, hg.nary,
        AssocOp.total_product]
  | whole e he => exact exists_strikes_of_isWhole he hw

/-- Powers of which a term has enough factors are used up. -/
lemma Strikes.perm_gone {es gone : List Expr} {powers : Powers} {remains : Remains}
    (h : Strikes es powers remains gone) (henough : powers.elements.Subperm (factorsAll es)) :
    powers.elements.Perm gone := by
  -- What is left of the powers is among the factors that are left, which exclude it.
  have hsub : (gone ++ remains.powers.elements).Subperm (gone ++ factorsAll remains.left) :=
    (h.powers.symm.subperm.trans henough).trans h.factors.subperm
  have hrest : remains.powers.elements = [] := by
    refine List.eq_nil_iff_forall_not_mem.2 fun f hf => ?_
    exact h.disjoint f (((List.subperm_append_left gone).1 hsub).subset hf) hf
  simpa [hrest] using h.powers

/-! ### Quotients -/

/-- What is left after striking has every hereditary property of the terms. -/
lemma Hereditary.strikeAll {Q : Expr → Prop} {es : List Expr}
    (h : ∀ e ∈ es, ∀ powers, ∀ t ∈ (e.strike powers).left, Q t) (powers : Powers) :
    ∀ t ∈ (strikeAll es powers).left, Q t := by
  induction es generalizing powers with
  | nil => simp [Expr.strikeAll]
  | cons e es ih =>
    intro t ht
    rw [Expr.strikeAll, Remains.append, List.mem_append] at ht
    rcases ht with ht | ht
    · exact h e List.mem_cons_self powers t ht
    · exact ih (fun u hu => h u (List.mem_cons_of_mem e hu)) _ t ht

/-- What is left of a term has every hereditary property of the term. -/
lemma Hereditary.strike {Q : Expr → Prop} (hQ : Hereditary Q) {e : Expr} (he : Q e)
    (powers : Powers) : ∀ t ∈ (e.strike powers).left, Q t := by
  induction e using inductionOnFactors generalizing powers with
  | negation e ih => exact ih ((hQ.negation e).1 he) powers
  | product a b rest ih =>
    rw [strike_product]
    exact Hereditary.strikeAll
      (fun t ht powers => ih t ht ((hQ.nary .product a b rest).1 he t ht) powers) powers
  | whole e hwhole =>
    rw [strike_of_isWhole hwhole]
    cases powers.take? e with
    | none => simpa using he
    | some fewer => simp

/-- A quotient is the product of what is left, with a sign. -/
lemma divideOut_eq (t : Expr) (powers : Powers) :
    t.divideOut powers =
      if (t.strike powers).negated then
        negation (if (gather .product (t.strike powers).left).isEmpty then integer 1
          else gather .product (t.strike powers).left)
      else if (gather .product (t.strike powers).left).isEmpty then integer 1
        else gather .product (t.strike powers).left := rfl

/-- A product of what is left, or one, has every hereditary property of what is left. -/
lemma Hereditary.gatherOrOne {Q : Expr → Prop} (hQ : Hereditary Q) {es : List Expr}
    (h : ∀ e ∈ es, Q e) :
    Q (if (Expr.gather .product es).isEmpty then Expr.integer 1 else Expr.gather .product es) := by
  split
  · exact hQ.integer 1
  · next hne =>
    refine hQ.gather .product ?_ h
    rintro rfl
    exact hne rfl

/-- A quotient has every hereditary property of the term. -/
lemma Hereditary.divideOut {Q : Expr → Prop} (hQ : Hereditary Q) {t : Expr} (ht : Q t)
    (powers : Powers) : Q (t.divideOut powers) := by
  have hquotient := hQ.gatherOrOne (hQ.strike ht powers)
  rw [divideOut_eq]
  split
  · exact (hQ.negation _).2 hquotient
  · exact hquotient

namespace Interprets

variable {R : Type} [CommSemiring R] {sign : R} {g : Expr → R} (hg : Interprets sign g)

include hg

/-- The quantity of a product of what is left, or one. -/
lemma gatherOrOne {es : List Expr} (h : ∀ e ∈ es, e.isExact = true) :
    g (if (Expr.gather .product es).isEmpty then Expr.integer 1 else Expr.gather .product es) =
      (es.map g).prod := by
  by_cases hne : es = []
  · rw [hne]
    exact hg.one
  · have hexact := hereditary_isExact.gather .product hne h
    rw [isEmpty_of_isExact hexact, if_neg Bool.false_ne_true, hg.gather .product hne h,
      AssocOp.total_product]

/-- The quantity of a term is that of its quotient times that of the factors that are gone. -/
lemma divideOut {t : Expr} {powers : Powers} {gone : List Expr}
    (h : Strikes [t] powers (t.strike powers) gone) (ht : t.isExact = true) :
    g t = g (t.divideOut powers) * (gone.map g).prod := by
  have hterm := h.interprets hg
  rw [List.map_singleton, List.prod_singleton] at hterm
  have hleft := hg.gatherOrOne (hereditary_isExact.strike ht powers)
  rw [hterm, divideOut_eq]
  split
  · next hneg => rw [hg.negation, hleft, hneg]; simp [signFactor]
  · next hneg => rw [hleft, Bool.eq_false_iff.2 hneg]; simp [signFactor]

end Interprets

end Expr

end TermAlgebra
