import TermAlgebra.Fault
import TermAlgebra.Expr.Basic

/-!
# Traces

A simplification takes notes on its way, which stay when it fails. Main definitions:
`Simplify.Note` and `Traced`.
-/

namespace TermAlgebra

/-- What a simplification takes note of: a step with the complexity of the two forms that it could
choose from, and a run that has not come to rest after a number of steps. -/
inductive Simplify.Note
  | step (expr : Expr) (direct collected : Nat)
  | unsettled (expr : Expr) (steps : Nat)

/-- A result or a fault, together with the notes taken before it. -/
structure Traced (α : Type) where
  notes : List Simplify.Note
  result : Except Fault α

namespace Traced

/-- A result that needs no note. -/
def ofResult {α : Type} (result : Except Fault α) : Traced α :=
  ⟨[], result⟩

/-- Two computations one after the other. The second one is left out if the first one fails. -/
def andThen {α β : Type} (x : Traced α) (f : α → Traced β) : Traced β :=
  match x.result with
  | .ok a =>
    let y := f a
    ⟨x.notes ++ y.notes, y.result⟩
  | .error fault => ⟨x.notes, .error fault⟩

instance : Monad Traced where
  pure a := ofResult (.ok a)
  bind := andThen

instance : MonadLift (Except Fault) Traced where
  monadLift := ofResult

/-- Takes a note. -/
def note (n : Simplify.Note) : Traced Unit :=
  ⟨[n], .ok ()⟩

@[simp] theorem result_pure {α : Type} (a : α) : (pure a : Traced α).result = .ok a := rfl

@[simp] theorem result_ofResult {α : Type} (r : Except Fault α) : (ofResult r).result = r := rfl

@[simp] theorem result_note (n : Simplify.Note) : (note n).result = .ok () := rfl

@[simp] theorem result_bind {α β : Type} (x : Traced α) (f : α → Traced β) :
    (x >>= f).result = x.result >>= fun a => (f a).result := by
  obtain ⟨notes, result⟩ := x
  cases result <;> rfl

@[simp] theorem notes_pure {α : Type} (a : α) : (pure a : Traced α).notes = [] := rfl

@[simp] theorem notes_note (n : Simplify.Note) : (note n).notes = [n] := rfl

/-- After a success the notes of the second computation follow those of the first. -/
theorem notes_bind_of_ok {α β : Type} {x : Traced α} {a : α} (h : x.result = .ok a)
    (f : α → Traced β) : (x >>= f).notes = x.notes ++ (f a).notes := by
  obtain ⟨notes, result⟩ := x
  obtain rfl : result = .ok a := h
  rfl

end Traced

end TermAlgebra
