import Mathlib.Tactic
import TermAlgebra.Proofs.Assembling
import TermAlgebra.Proofs.Kinds
import TermAlgebra.Proofs.Phrases
import TermAlgebra.Proofs.Spacing

/-!
# Outer parentheses

A text in parentheses stands for the same tree as the text itself (`parse_enclosed`), whatever the
text is, the empty one included.

The text between the parentheses is cut into the same tokens (`Token.spells_of_lex`), and the same
operators among them are signs, since no operand ends at an opening parenthesis
(`Token.resolveSigns_enclosed`).  So two assemblies are compared: the second one takes in the same
tokens while one more barrier waits below everything else (`Assembly.enclosed`).  No token of the
first one reaches as deep as that, so the states correspond after each token (`push_enclosed`) and
after all of them (`run_enclosed`).  The last parenthesis then has the operators applied that the
first assembly applies when the tokens have ended (`close_enclosed`).
-/

namespace TermAlgebra

/-! ### Signs -/

namespace Token

/-- What a token is meant as depends only on whether an operand ends before it. -/
lemma resolved_congr {previous previous' : Option Token}
    (h : previous.any endsOperand = previous'.any endsOperand) (token : Token) :
    token.resolved previous = token.resolved previous' := by
  cases token with
  | operator op => rw [resolved, resolved, h]
  | _ => rfl

/-- So does what all tokens are meant as. -/
lemma resolveAfter_congr {previous previous' : Option Token}
    (h : previous.any endsOperand = previous'.any endsOperand) (tokens : List Token) :
    resolveAfter previous tokens = resolveAfter previous' tokens := by
  cases tokens with
  | nil => rfl
  | cons token tokens => rw [resolveAfter, resolveAfter, resolved_congr h]

/-- A parenthesis at the end has no influence on the signs before it. -/
lemma resolveAfter_concat_paren (previous : Option Token) (tokens : List Token) (side : Paren) :
    resolveAfter previous (tokens ++ [.paren side]) =
      resolveAfter previous tokens ++ [.paren side] := by
  induction tokens generalizing previous with
  | nil => rfl
  | cons token tokens ih => rw [List.cons_append, resolveAfter, ih, resolveAfter, List.cons_append]

/-- Nor have parentheses around the tokens. -/
lemma resolveSigns_enclosed (tokens : List Token) :
    resolveSigns (.paren .left :: tokens ++ [.paren .right]) =
      .paren .left :: resolveSigns tokens ++ [.paren .right] := by
  have hended : (some (paren .left)).any endsOperand = (none : Option Token).any endsOperand := rfl
  have hopening : resolveAfter none (paren .left :: tokens) =
      paren .left :: resolveAfter (some (paren .left)) tokens := rfl
  rw [resolveSigns, resolveAfter_concat_paren, hopening, resolveAfter_congr hended]
  rfl

end Token

/-! ### One more barrier -/

namespace Assembly

/-- The state with one more parenthesis that is open around everything. -/
def enclosed (state : Assembly) : Assembly :=
  ⟨state.pending ++ [.barrier], state.operands⟩

/-- An operator has the same waiting operators applied inside one more parenthesis. -/
lemma makeWay_enclosed {op : Operator} {pending : List Pending} {operands : List Expr}
    {next : Assembly} (h : makeWay op pending operands = .ok next) :
    makeWay op (pending ++ [.barrier]) operands = .ok next.enclosed := by
  induction pending generalizing operands with
  | nil =>
    obtain rfl := Except.ok.inj h
    rfl
  | cons top pending ih =>
    cases top with
    | barrier =>
      obtain rfl := Except.ok.inj h
      rfl
    | operator top =>
      rw [makeWay] at h
      rw [List.cons_append, makeWay]
      split at h
      · next hyields =>
        obtain ⟨operands', happly, h⟩ := Outcome.bind_eq_ok_iff.1 h
        rw [if_pos hyields, happly]
        exact ih h
      · next hrests =>
        obtain rfl := Except.ok.inj h
        rw [if_neg hrests]
        rfl

/-- A closing parenthesis finds the same partner inside one more parenthesis. -/
lemma close_of_enclosed {pending : List Pending} {operands : List Expr} {next : Assembly}
    (h : close pending operands = .ok next) :
    close (pending ++ [.barrier]) operands = .ok next.enclosed := by
  obtain ⟨waiting, rfl, happly⟩ := Grammar.exists_applyAll_of_close h
  rw [List.append_assoc]
  exact Grammar.close_append happly

section Neighbours

variable {previous previous' following following' : Option Token}
  (hprevious : previous.any Token.endsOperand = previous'.any Token.endsOperand)
  (hfollowing : following.any Token.startsOperand = following'.any Token.startsOperand)

include hprevious hfollowing

/-- Neighbours matter only as far as operands end or start with them. -/
lemma checkNeighbours_congr (op : Operator) :
    op.checkNeighbours previous following = op.checkNeighbours previous' following' := by
  rw [Operator.checkNeighbours, Operator.checkNeighbours, hprevious, hfollowing]

/-- A token has the same effect inside one more parenthesis. -/
lemma push_enclosed {state next : Assembly} {token : Token}
    (h : state.push previous token following = .ok next) :
    state.enclosed.push previous' token following' = .ok next.enclosed := by
  cases token with
  | operator op =>
    rw [push_operator] at h ⊢
    obtain ⟨_, hcheck, h⟩ := Outcome.bind_eq_ok_iff.1 h
    obtain ⟨way, hway, rfl⟩ := Outcome.map_eq_ok_iff.1 h
    rw [checkNeighbours_congr hprevious hfollowing] at hcheck
    rw [hcheck, enclosed, makeWay_enclosed hway]
    rfl
  | paren side =>
    cases side with
    | left =>
      obtain rfl := Except.ok.inj h
      rfl
    | right => exact close_of_enclosed h
  | _ =>
    obtain rfl := Except.ok.inj h
    rfl

end Neighbours

/-- Tokens have the same effect inside one more parenthesis, which the last one closes. -/
lemma run_enclosed {state last : Assembly} {previous previous' : Option Token}
    {tokens : List Token}
    (hprevious : previous.any Token.endsOperand = previous'.any Token.endsOperand)
    (h : state.run previous tokens = .ok last) :
    state.enclosed.run previous' (tokens ++ [.paren .right]) =
      close last.enclosed.pending last.enclosed.operands := by
  induction tokens generalizing state previous previous' with
  | nil =>
    obtain rfl := Except.ok.inj h
    exact bind_pure _
  | cons token tokens ih =>
    obtain ⟨next, hpush, h⟩ := Outcome.bind_eq_ok_iff.1 h
    -- Neither the end of the tokens nor a closing parenthesis starts an operand.
    have hfollowing : tokens.head?.any Token.startsOperand =
        (tokens ++ [Token.paren .right]).head?.any Token.startsOperand := by
      cases tokens <;> rfl
    rw [List.cons_append, run, push_enclosed hprevious hfollowing hpush]
    exact ih rfl h

/-- Closing the parenthesis around everything applies what is applied at the end of the tokens. -/
lemma close_enclosed {state : Assembly} {results : List Expr}
    (h : finish state.pending state.operands = .ok results) :
    close state.enclosed.pending state.enclosed.operands = .ok ⟨[], results⟩ := by
  obtain ⟨waiting, hpending, happly⟩ := Grammar.exists_applyAll_of_finish h
  rw [enclosed, hpending]
  exact Grammar.close_append happly

end Assembly

namespace Expr

/-- Tokens in parentheses are assembled to the same tree. -/
lemma assemble_enclosed {tokens : List Token} {e : Expr} (h : assemble tokens = .ok e) :
    assemble (.paren .left :: tokens ++ [.paren .right]) = .ok e := by
  obtain ⟨last, hrun, hresult⟩ := Outcome.bind_eq_ok_iff.1 h
  obtain ⟨results, hfinish, hresult⟩ := Outcome.bind_eq_ok_iff.1 hresult
  have hended : (none : Option Token).any Token.endsOperand =
      (some (Token.paren .left)).any Token.endsOperand := rfl
  have hclosed : ({} : Assembly).run none (.paren .left :: tokens ++ [.paren .right]) =
      .ok ⟨[], results⟩ :=
    (Assembly.run_enclosed hended hrun).trans (Assembly.close_enclosed hfinish)
  rw [assemble, hclosed]
  exact hresult

/-- Outer parentheses are neutral: a text in parentheses stands for the tree that the text stands
for. -/
theorem parse_enclosed {s : String} {e : Expr} (h : parse s = .ok e) :
    parse ("(" ++ s ++ ")") = .ok e := by
  obtain ⟨resolved, htokens, hassemble⟩ := Outcome.bind_eq_ok_iff.1 h
  obtain ⟨tokens, hlex, rfl⟩ := Outcome.map_eq_ok_iff.1 htokens
  have hspells := (Token.spells_of_lex tokens hlex).parenthesized.lex_eq_ok
  have htext : ("(" ++ s ++ ")").toList = '(' :: s.toList ++ [')'] := by
    rw [String.toList_append, String.toList_append]
    rfl
  rw [parse, Token.ofText, htext, hspells]
  exact (congrArg assemble (Token.resolveSigns_enclosed tokens)).trans (assemble_enclosed hassemble)

/-- For instance a text that is accepted although an operand is missing, because another one is
juxtaposed. -/
theorem parse_enclosed_juxtaposed :
    parse "w x - ()" = .ok (sum (var "w") (negation (var "x")) []) ∧
      parse "(w x - ())" = .ok (sum (var "w") (negation (var "x")) []) := by
  have hparse : parse "w x - ()" = .ok (sum (var "w") (negation (var "x")) []) :=
    eq_ok_of_returns rfl (by decide +kernel)
  have htext : "(" ++ "w x - ()" ++ ")" = "(w x - ())" := rfl
  have henclosed := parse_enclosed hparse
  rw [htext] at henclosed
  exact ⟨hparse, henclosed⟩

end Expr

end TermAlgebra
