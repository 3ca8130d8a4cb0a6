import Mathlib.Tactic
import TermAlgebra.Simplify.Trace

/-!
# Outcomes of calculations

When a sequence of calculations succeeds, each of them does.  For plain results this is
`Outcome.bind_eq_ok_iff`; for calculations that take notes, `Traced.Yields` says that the result is
a given one and that all the notes satisfy a condition.  Without a condition this is success
(`Traced.yields_true_iff`); with the condition that no run is broken off it is success in which
every run comes to rest (`Traced.Settles`).  `Outcome.FailsOnly` says for which causes a calculation
can fail.
-/

namespace TermAlgebra

namespace Outcome

variable {ε α β : Type}

/-- A sequence of two calculations succeeds if the first one does and then the second one. -/
lemma bind_eq_ok_iff {x : Except ε α} {f : α → Except ε β} {b : β} :
    (x >>= f) = .ok b ↔ ∃ a, x = .ok a ∧ f a = .ok b := by
  cases x with
  | error fault => simp [bind, Except.bind]
  | ok a => simp [bind, Except.bind]

/-- A result that is mapped is one of the calculation that is mapped. -/
lemma map_eq_ok_iff {x : Except ε α} {f : α → β} {b : β} :
    f <$> x = .ok b ↔ ∃ a, x = .ok a ∧ f a = b := by
  cases x with
  | error fault => simp [Functor.map, Except.map]
  | ok a => simp [Functor.map, Except.map]

/-- A calculation that only returns something succeeds with it. -/
lemma pure_eq_ok_iff {a b : α} : (pure a : Except ε α) = .ok b ↔ a = b := by
  simp [pure, Except.pure]

/-- The results of a list of calculations stand beside the items that they belong to. -/
lemma mapM_eq_ok_iff {f : α → Except ε β} {as : List α} {bs : List β} :
    as.mapM f = .ok bs ↔ List.Forall₂ (fun a b => f a = .ok b) as bs := by
  induction as generalizing bs with
  | nil =>
    rw [List.mapM_nil, pure_eq_ok_iff]
    constructor
    · rintro rfl
      exact .nil
    · rintro ⟨⟩
      rfl
  | cons a as ih =>
    rw [List.mapM_cons, bind_eq_ok_iff]
    constructor
    · rintro ⟨b, hb, h⟩
      obtain ⟨cs, hcs, h⟩ := bind_eq_ok_iff.1 h
      obtain rfl := pure_eq_ok_iff.1 h
      exact .cons hb (ih.1 hcs)
    · rintro (_ | ⟨hb, hbs⟩)
      exact ⟨_, hb, bind_eq_ok_iff.2 ⟨_, ih.2 hbs, rfl⟩⟩

/-- Calculations that give translated results for translated items do so for whole lists. -/
lemma mapM_map_eq {γ δ : Type} {f : α → Except ε β} {g : γ → Except ε δ} {i : α → γ} {j : β → δ}
    {as : List α} (h : ∀ a ∈ as, g (i a) = j <$> f a) :
    (as.map i).mapM g = List.map j <$> as.mapM f := by
  induction as with
  | nil => rfl
  | cons a as ih =>
    rw [List.forall_mem_cons] at h
    rw [List.map_cons, List.mapM_cons, List.mapM_cons, h.1, ih h.2]
    simp only [bind_map_left, map_bind, map_pure, List.map_cons]

/-- Calculations that agree on all items of a list do so on the list. -/
lemma mapM_congr {f g : α → Except ε β} {as : List α} (h : ∀ a ∈ as, f a = g a) :
    as.mapM f = as.mapM g := by
  induction as with
  | nil => rfl
  | cons a as ih =>
    rw [List.forall_mem_cons] at h
    rw [List.mapM_cons, List.mapM_cons, h.1, ih h.2]

/-! ### Failures -/

/-- Whether a calculation can only fail for a cause that satisfies a condition. -/
def FailsOnly (P : ε → Prop) (x : Except ε α) : Prop :=
  ∀ cause, x = .error cause → P cause

variable {P : ε → Prop}

/-- A success does not fail. -/
lemma failsOnly_ok (a : α) : FailsOnly P (.ok a) :=
  fun _ h => nomatch h

/-- A failure fails for its cause. -/
lemma failsOnly_error {cause : ε} (h : P cause) : FailsOnly P (.error cause : Except ε α) := by
  intro other hother
  exact Except.error.inj hother ▸ h

/-- What can only fail for one kind of cause can only fail for a wider kind. -/
lemma FailsOnly.mono {Q : ε → Prop} {x : Except ε α} (hx : FailsOnly P x)
    (h : ∀ cause, P cause → Q cause) : FailsOnly Q x :=
  fun cause hcause => h cause (hx cause hcause)

/-- A sequence of two calculations fails in the first one or in the second one. -/
lemma FailsOnly.bind {x : Except ε α} {f : α → Except ε β} (hx : FailsOnly P x)
    (hf : ∀ a, x = .ok a → FailsOnly P (f a)) : FailsOnly P (x >>= f) := by
  cases x with
  | error fault => exact failsOnly_error (hx fault rfl)
  | ok a => exact hf a rfl

/-- Mapping a result does not add a failure. -/
lemma FailsOnly.map {x : Except ε α} (hx : FailsOnly P x) (f : α → β) :
    FailsOnly P (f <$> x) := by
  cases x with
  | error fault => exact failsOnly_error (hx fault rfl)
  | ok a => exact failsOnly_ok (f a)

/-- A list of calculations fails in one of them. -/
lemma failsOnly_mapM {f : α → Except ε β} {as : List α} (h : ∀ a ∈ as, FailsOnly P (f a)) :
    FailsOnly P (as.mapM f) := by
  induction as with
  | nil => exact failsOnly_ok []
  | cons a as ih =>
    rw [List.forall_mem_cons] at h
    rw [List.mapM_cons]
    exact h.1.bind fun b _ => (ih h.2).bind fun bs _ => failsOnly_ok (b :: bs)

/-- A fold fails in one of its steps. -/
lemma failsOnly_foldlM {f : β → α → Except ε β} (h : ∀ b a, FailsOnly P (f b a)) (as : List α)
    (b : β) : FailsOnly P (as.foldlM f b) := by
  induction as generalizing b with
  | nil => exact failsOnly_ok b
  | cons a as ih =>
    rw [List.foldlM_cons]
    exact (h b a).bind fun b _ => ih b

end Outcome

/-- Whether a note tells of a run that was broken off before it came to rest. -/
def Simplify.Note.isUnsettled : Simplify.Note → Bool
  | .step .. => false
  | .unsettled .. => true

namespace Traced

variable {α β : Type} {p : Simplify.Note → Prop}

/-- A calculation yields a result under a condition on its notes if it succeeds with that result
and all its notes satisfy the condition. -/
def Yields (p : Simplify.Note → Prop) (x : Traced α) (a : α) : Prop :=
  x.result = .ok a ∧ ∀ n ∈ x.notes, p n

/-- A calculation settles at a result if it yields it and all the runs in it come to rest. -/
def Settles (x : Traced α) (a : α) : Prop :=
  x.Yields (fun n => n.isUnsettled = false) a

/-- Without a condition on the notes only the result counts. -/
lemma yields_true_iff {x : Traced α} {a : α} : x.Yields (fun _ => True) a ↔ x.result = .ok a := by
  simp [Yields]

/-- A calculation without notes yields its result under any condition. -/
lemma yields_ofResult {r : Except Fault α} {a : α} : (ofResult r).Yields p a ↔ r = .ok a := by
  simp [Yields, ofResult]

/-- Returning a result yields it under any condition. -/
lemma yields_pure {a b : α} : (pure a : Traced α).Yields p b ↔ a = b := by
  simp [Yields]

/-- Taking a note is fine if the note satisfies the condition. -/
lemma yields_note {n : Simplify.Note} {u : Unit} : (note n).Yields p u ↔ p n := by
  simp [Yields]

/-- Two calculations one after the other yield what the second one yields after the first one. -/
lemma yields_bind {x : Traced α} {f : α → Traced β} {b : β} :
    (x >>= f).Yields p b ↔ ∃ a, x.Yields p a ∧ (f a).Yields p b := by
  constructor
  · rintro ⟨hresult, hnotes⟩
    rw [result_bind] at hresult
    obtain ⟨a, ha, hb⟩ := Outcome.bind_eq_ok_iff.1 hresult
    rw [notes_bind_of_ok ha] at hnotes
    exact ⟨a, ⟨ha, fun n hn => hnotes n (List.mem_append_left _ hn)⟩,
      hb, fun n hn => hnotes n (List.mem_append_right _ hn)⟩
  · rintro ⟨a, ⟨ha, hx⟩, hb, hf⟩
    refine ⟨by rw [result_bind, ha]; exact hb, ?_⟩
    rw [notes_bind_of_ok ha]
    intro n hn
    exact (List.mem_append.1 hn).elim (hx n) (hf n)

/-- A plain calculation within a traced one yields its result. -/
lemma yields_liftM {r : Except Fault α} {a : α} :
    (liftM r : Traced α).Yields p a ↔ r = .ok a :=
  yields_ofResult

end Traced

end TermAlgebra
