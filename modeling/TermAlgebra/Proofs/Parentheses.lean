import Mathlib.Tactic
import TermAlgebra.Proofs.Assembling

/-!
# Refused tokens

Why a list of tokens is not assembled, and what its parentheses have to do with it.

The barriers that wait are the parentheses that are open: a list of tokens that is taken in changes
their number by what it opens and closes (`Assembly.TakesAll.depth_add_count`), and so does each
beginning of the list.  Hence tokens that are assembled have matched parentheses
(`Token.Matched`, `Assembly.matched_of_takesAll`).

The other way around, an assembly fails because of its operands or because of a parenthesis, and a
parenthesis is reported in two places only: where one is closed although none is open, and at the
end where one is open still.  Neither can happen if the parentheses match
(`Assembly.mismatchedOnlyIf_assemble`), whatever else is wrong with the tokens.
-/

namespace TermAlgebra

open Outcome (FailsOnly failsOnly_ok failsOnly_error)

/-- Whether the parentheses among the tokens match: no beginning closes more of them than it opens,
and all together close as many as they open. -/
def Token.Matched (tokens : List Token) : Prop :=
  (∀ before, before <+: tokens →
    before.count (.paren .right) ≤ before.count (.paren .left)) ∧
    tokens.count (.paren .left) = tokens.count (.paren .right)

/-- Whether parentheses match can be decided, since there are finitely many beginnings. -/
instance : DecidablePred Token.Matched := fun tokens =>
  decidable_of_iff ((∀ before ∈ tokens.inits,
      before.count (.paren .right) ≤ before.count (.paren .left)) ∧
      tokens.count (.paren .left) = tokens.count (.paren .right))
    (by simp only [List.mem_inits, Token.Matched])

namespace Assembly

/-! ### Counting parentheses -/

/-- A token changes the number of open parentheses by what it opens and closes. -/
lemma Takes.depth_add_count {state next : Assembly} {token : Token} (h : Takes state token next) :
    next.depth + [token].count (.paren .right) = state.depth + [token].count (.paren .left) := by
  cases token with
  | paren side =>
    cases side with
    | left => exact h.depth_opening
    | right => exact h.depth_closing.symm
  | _ => rw [h.depth_eq fun side => Token.noConfusion]; rfl

/-- Several tokens do so too. -/
lemma TakesAll.depth_add_count {state last : Assembly} {tokens : List Token}
    (h : TakesAll state tokens last) :
    last.depth + tokens.count (.paren .right) = state.depth + tokens.count (.paren .left) := by
  induction h with
  | nil state => rfl
  | @cons state next last token tokens htakes _ ih =>
    have hfirst := htakes.depth_add_count
    rw [← List.singleton_append, List.count_append, List.count_append]
    omega

/-- When tokens have been taken in, so has been each beginning of them. -/
lemma TakesAll.exists_of_prefix {state last : Assembly} {tokens before : List Token}
    (h : TakesAll state tokens last) (hbefore : before <+: tokens) :
    ∃ next, TakesAll state before next := by
  induction h generalizing before with
  | nil state =>
    rw [List.prefix_nil] at hbefore
    exact ⟨state, hbefore ▸ .nil state⟩
  | @cons state next last token tokens htakes _ ih =>
    rcases List.prefix_cons_iff.1 hbefore with rfl | ⟨before, rfl, hshorter⟩
    · exact ⟨state, .nil state⟩
    · obtain ⟨middle, hmiddle⟩ := ih hshorter
      exact ⟨middle, .cons htakes hmiddle⟩

/-- Tokens that leave no parenthesis open have matched parentheses. -/
lemma matched_of_takesAll {last : Assembly} {tokens : List Token} (h : TakesAll {} tokens last)
    (hlast : last.depth = 0) : Token.Matched tokens := by
  have hstart : ({} : Assembly).depth = 0 := rfl
  constructor
  · intro before hbefore
    obtain ⟨next, hnext⟩ := h.exists_of_prefix hbefore
    have hcount := hnext.depth_add_count
    omega
  · have hcount := h.depth_add_count
    omega

/-- Tokens that are assembled have matched parentheses. -/
lemma matched_of_assemble {tokens : List Token} {e : Expr} (h : Expr.assemble tokens = .ok e) :
    Token.Matched tokens := by
  obtain ⟨waiting, operands, -, htakes, -⟩ := exists_takesAll h
  refine matched_of_takesAll htakes ?_
  have hcount := count_barrier_append waiting []
  rwa [List.append_nil] at hcount

end Assembly

/-! ### Failures -/

namespace Fault

/-- Whether a fault is one of assembling tokens to an expression. -/
def isAssemblyFault : Fault → Bool
  | .mismatchedParenthesis | .notAnOperand _ | .unexpectedToken _ | .missingOperand ..
  | .missingSignOperand _ | .severalExpressions => true
  | _ => false

/-- Whether a fault lies in the number of operands: one is missing, or some are left over. -/
def concernsOperands : Fault → Bool
  | .missingOperand .. | .missingSignOperand _ | .severalExpressions => true
  | _ => false

/-- A fault of assembling lies in the form of a text. -/
lemma isSyntactic_of_isAssemblyFault {fault : Fault} (h : fault.isAssemblyFault = true) :
    fault.isSyntactic = true := by
  cases fault <;> simp_all [isAssemblyFault, isSyntactic]

/-- A fault in the operands is one of assembling. -/
lemma isAssemblyFault_of_concernsOperands {fault : Fault} (h : fault.concernsOperands = true) :
    fault.isAssemblyFault = true := by
  cases fault <;> simp_all [isAssemblyFault, concernsOperands]

end Fault

namespace Assembly

/-- Whether a calculation can only fail with a fault of assembling. -/
abbrev FailsToAssemble {α : Type} (x : Except Fault α) : Prop :=
  FailsOnly (fun fault => fault.isAssemblyFault = true) x

/-- Whether a calculation can only fail because of its operands, or because of a parenthesis and
then only under a condition. -/
abbrev MismatchedOnlyIf {α : Type} (C : Prop) (x : Except Fault α) : Prop :=
  FailsOnly (fun fault => fault.concernsOperands = true ∨ fault = .mismatchedParenthesis ∧ C) x

section Conditions

variable {C D : Prop}

/-- The condition may be replaced by one that follows from it. -/
lemma MismatchedOnlyIf.imp {α : Type} {x : Except Fault α} (h : MismatchedOnlyIf C x)
    (hCD : C → D) : MismatchedOnlyIf D x :=
  FailsOnly.mono h fun _ => Or.imp_right (And.imp_right hCD)

/-- An operator can only lack an operand. -/
lemma mismatchedOnlyIf_applyTo (op : Operator) (operands : List Expr) :
    MismatchedOnlyIf C (op.applyTo operands) := by
  unfold Operator.applyTo
  split
  · split
    · exact failsOnly_error (Or.inl rfl)
    · exact failsOnly_ok _
  · split
    · exact failsOnly_error (Or.inl rfl)
    · exact failsOnly_error (Or.inl rfl)
    · exact failsOnly_ok _

/-- Making way for an operator fails where an operator is applied. -/
lemma mismatchedOnlyIf_makeWay (op : Operator) (pending : List Pending) (operands : List Expr) :
    MismatchedOnlyIf C (makeWay op pending operands) := by
  induction pending generalizing operands with
  | nil => exact failsOnly_ok _
  | cons top pending ih =>
    cases top with
    | barrier => exact failsOnly_ok _
    | operator top =>
      rw [makeWay]
      split
      · exact (mismatchedOnlyIf_applyTo top operands).bind fun operands _ => ih operands
      · exact failsOnly_ok _

/-- A binary operator can only lack a neighbour. -/
lemma mismatchedOnlyIf_checkNeighbours (op : Operator) (previous following : Option Token) :
    MismatchedOnlyIf C (op.checkNeighbours previous following) := by
  unfold Operator.checkNeighbours
  split
  · exact failsOnly_ok _
  all_goals exact failsOnly_error (Or.inl rfl)

end Conditions

/-- Closing a parenthesis fails where an operator is applied, or if none is open. -/
lemma mismatchedOnlyIf_close (pending : List Pending) (operands : List Expr) :
    MismatchedOnlyIf (pending.count .barrier = 0) (close pending operands) := by
  induction pending generalizing operands with
  | nil => exact failsOnly_error (Or.inr ⟨rfl, rfl⟩)
  | cons top pending ih =>
    cases top with
    | barrier => exact failsOnly_ok _
    | operator top =>
      rw [List.count_cons_of_ne Pending.noConfusion]
      exact (mismatchedOnlyIf_applyTo top operands).bind fun operands _ => ih operands

/-- The end of the tokens fails where an operator is applied, or if a parenthesis is open. -/
lemma mismatchedOnlyIf_finish (pending : List Pending) (operands : List Expr) :
    MismatchedOnlyIf (0 < pending.count .barrier) (finish pending operands) := by
  induction pending generalizing operands with
  | nil => exact failsOnly_ok _
  | cons top pending ih =>
    cases top with
    | barrier => exact failsOnly_error (Or.inr ⟨rfl, List.count_pos_iff.2 List.mem_cons_self⟩)
    | operator top =>
      rw [List.count_cons_of_ne Pending.noConfusion]
      exact (mismatchedOnlyIf_applyTo top operands).bind fun operands _ => ih operands

/-- Taking in a token fails where operators are checked or applied, or if it closes a parenthesis
and none is open. -/
lemma mismatchedOnlyIf_push (state : Assembly) (previous : Option Token) (token : Token)
    (following : Option Token) :
    MismatchedOnlyIf (token = .paren .right ∧ state.depth = 0)
      (state.push previous token following) := by
  cases token with
  | operator op =>
    rw [push_operator]
    refine FailsOnly.bind ?_ fun _ _ =>
      (mismatchedOnlyIf_makeWay op state.pending state.operands).map _
    split
    · exact failsOnly_ok _
    · exact mismatchedOnlyIf_checkNeighbours op previous following
  | paren side =>
    cases side with
    | left => exact failsOnly_ok _
    | right => exact (mismatchedOnlyIf_close state.pending state.operands).imp fun h => ⟨rfl, h⟩
  | _ => exact failsOnly_ok _

/-- While tokens are taken in a parenthesis is reported only after a beginning that closes all that
are open. -/
lemma mismatchedOnlyIf_run (state : Assembly) (previous : Option Token) (tokens : List Token) :
    MismatchedOnlyIf (∃ before, before ++ [.paren .right] <+: tokens ∧
        state.depth + before.count (.paren .left) = before.count (.paren .right))
      (state.run previous tokens) := by
  induction tokens generalizing state previous with
  | nil => exact failsOnly_ok state
  | cons token tokens ih =>
    refine FailsOnly.bind ?_ fun next hnext => ?_
    · refine (mismatchedOnlyIf_push state previous token tokens.head?).imp ?_
      rintro ⟨rfl, hdepth⟩
      exact ⟨[], List.prefix_append [_] tokens, hdepth⟩
    · refine (ih next (some token)).imp ?_
      rintro ⟨before, hbefore, hcount⟩
      have hfirst := (takes_of_push hnext).depth_add_count
      refine ⟨token :: before, List.cons_prefix_cons.2 ⟨rfl, hbefore⟩, ?_⟩
      rw [← List.singleton_append, List.count_append, List.count_append]
      omega

/-- A parenthesis is reported only if the parentheses do not match. -/
lemma mismatchedOnlyIf_assemble (tokens : List Token) :
    MismatchedOnlyIf (¬ Token.Matched tokens) (Expr.assemble tokens) := by
  have hstart : ({} : Assembly).depth = 0 := rfl
  refine FailsOnly.bind ?_ fun last hlast => FailsOnly.bind ?_ fun results _ => ?_
  · refine (mismatchedOnlyIf_run {} none tokens).imp ?_
    rintro ⟨before, hbefore, hcount⟩ hmatched
    have hle := hmatched.1 _ hbefore
    rw [List.count_append, List.count_append, List.count_singleton_self] at hle
    have hnone : [Token.paren .right].count (.paren .left) = 0 := rfl
    omega
  · refine (mismatchedOnlyIf_finish last.pending last.operands).imp fun hopen hmatched => ?_
    have hcount := (takesAll_of_run hlast).depth_add_count
    have htotal := hmatched.2
    have hlast : 0 < last.depth := hopen
    omega
  · split
    · exact failsOnly_ok _
    · exact failsOnly_ok _
    · exact failsOnly_error (Or.inl rfl)

/-- Tokens can only fail to be assembled. -/
lemma failsToAssemble_assemble (tokens : List Token) : FailsToAssemble (Expr.assemble tokens) := by
  refine (mismatchedOnlyIf_assemble tokens).mono ?_
  rintro fault (hoperands | ⟨rfl, -⟩)
  · exact Fault.isAssemblyFault_of_concernsOperands hoperands
  · rfl

end Assembly

namespace Expr

/-- Tokens with parentheses that do not match are refused with a fault of assembling, and tokens
with matched parentheses are never refused for their parentheses. -/
theorem assemble_of_matched (tokens : List Token) :
    (¬ Token.Matched tokens →
      ∃ fault, assemble tokens = .error fault ∧ fault.isAssemblyFault = true) ∧
      (Token.Matched tokens → assemble tokens ≠ .error .mismatchedParenthesis) := by
  constructor
  · intro hmatched
    cases hassemble : assemble tokens with
    | ok e => exact absurd (Assembly.matched_of_assemble hassemble) hmatched
    | error fault => exact ⟨fault, rfl, Assembly.failsToAssemble_assemble tokens fault hassemble⟩
  · intro hmatched hassemble
    rcases Assembly.mismatchedOnlyIf_assemble tokens _ hassemble with hoperands | ⟨-, hmismatched⟩
    · exact Bool.noConfusion hoperands
    · exact hmismatched hmatched

/-- For instance parentheses the wrong way around are refused, and a sum without a right side is not
refused for its parentheses. -/
theorem assemble_of_matched_sum :
    (∃ fault, assemble [.paren .right, .name "x", .paren .left] = .error fault ∧
        fault.isAssemblyFault = true) ∧
      assemble [.paren .left, .name "x", .operator .plus, .paren .right] ≠
        .error .mismatchedParenthesis :=
  ⟨(assemble_of_matched _).1 (by decide), (assemble_of_matched _).2 (by decide)⟩

end Expr

end TermAlgebra
