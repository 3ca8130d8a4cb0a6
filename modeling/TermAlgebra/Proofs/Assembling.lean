import Mathlib.Tactic
import TermAlgebra.Proofs.Grammar

/-!
# Steps of an assembly

What taking in a token does to what waits and to the expressions built so far.

`Assembly.Takes` lists all that a token can do, and `Assembly.TakesAll` is the same for several
tokens in a row; a list of tokens that is assembled has been taken in from the empty state to one in
which only operators wait (`Assembly.exists_takesAll`).  So whatever the tokens are, each binary
operator takes two operands and leaves one (`Assembly.sum_gain_of_assemble`), and what the operators
keep is true of the result (`Assembly.result_invariant`).
-/

namespace TermAlgebra

/-! ### Applying waiting operators -/

namespace Grammar

/-- An operator has some waiting operators applied before it waits itself. -/
lemma exists_applyAll_of_makeWay {op : Operator} {pending : List Pending} {operands : List Expr}
    {next : Assembly} (h : Assembly.makeWay op pending operands = .ok next) :
    ∃ waiting : List Operator, pending = waiting.map .operator ++ next.pending ∧
      applyAll waiting operands = .ok next.operands := by
  induction pending generalizing operands with
  | nil =>
    obtain rfl := Except.ok.inj h
    exact ⟨[], rfl, rfl⟩
  | cons top pending ih =>
    cases top with
    | barrier =>
      obtain rfl := Except.ok.inj h
      exact ⟨[], rfl, rfl⟩
    | operator top =>
      rw [Assembly.makeWay] at h
      split at h
      · obtain ⟨operands', happly, h⟩ := Outcome.bind_eq_ok_iff.1 h
        obtain ⟨waiting, rfl, hwaiting⟩ := ih h
        refine ⟨top :: waiting, rfl, ?_⟩
        rw [applyAll_cons, happly]
        exact hwaiting
      · obtain rfl := Except.ok.inj h
        exact ⟨[], rfl, rfl⟩

/-- A closing parenthesis has the operators applied that wait down to the next barrier. -/
lemma exists_applyAll_of_close {pending : List Pending} {operands : List Expr} {next : Assembly}
    (h : Assembly.close pending operands = .ok next) :
    ∃ waiting : List Operator, pending = waiting.map .operator ++ .barrier :: next.pending ∧
      applyAll waiting operands = .ok next.operands := by
  induction pending generalizing operands with
  | nil => exact nomatch h
  | cons top pending ih =>
    cases top with
    | barrier =>
      obtain rfl := Except.ok.inj h
      exact ⟨[], rfl, rfl⟩
    | operator top =>
      obtain ⟨operands', happly, h⟩ := Outcome.bind_eq_ok_iff.1 h
      obtain ⟨waiting, rfl, hwaiting⟩ := ih h
      refine ⟨top :: waiting, rfl, ?_⟩
      rw [applyAll_cons, happly]
      exact hwaiting

/-- At the end all that waits are operators, and they are applied. -/
lemma exists_applyAll_of_finish {pending : List Pending} {operands results : List Expr}
    (h : Assembly.finish pending operands = .ok results) :
    ∃ waiting : List Operator, pending = waiting.map .operator ∧
      applyAll waiting operands = .ok results := by
  induction pending generalizing operands with
  | nil => exact ⟨[], rfl, h⟩
  | cons top pending ih =>
    cases top with
    | barrier => exact nomatch h
    | operator top =>
      obtain ⟨operands', happly, h⟩ := Outcome.bind_eq_ok_iff.1 h
      obtain ⟨waiting, rfl, hwaiting⟩ := ih h
      refine ⟨top :: waiting, rfl, ?_⟩
      rw [applyAll_cons, happly]
      exact hwaiting

end Grammar

/-- An operator takes one operand or two and leaves one. -/
lemma Operator.applyTo_eq_ok {op : Operator} {operands results : List Expr}
    (h : op.applyTo operands = .ok results) :
    op.isUnary = true ∧ (∃ e rest, operands = e :: rest ∧ results = op.signed e :: rest) ∨
      op.isUnary = false ∧
        ∃ l r rest, operands = r :: l :: rest ∧ results = op.combined l r :: rest := by
  unfold Operator.applyTo at h
  split at h
  · next hunary =>
    split at h
    · exact nomatch h
    · next e rest => exact Or.inl ⟨hunary, e, rest, rfl, (Except.ok.inj h).symm⟩
  · next hbinary =>
    split at h
    · exact nomatch h
    · exact nomatch h
    · next r l rest =>
      exact Or.inr ⟨Bool.eq_false_iff.2 hbinary, l, r, rest, rfl, (Except.ok.inj h).symm⟩

/-! ### Gains -/

/-- By how many the operands become more when the operator is applied. -/
def Operator.gain (op : Operator) : ℤ :=
  if op.isUnary then 0 else -1

/-- By how many the operands become more when what waits is applied. -/
def Pending.gain : Pending → ℤ
  | .operator op => op.gain
  | .barrier => 0

/-- By how many the operands become more because of a token. -/
def Token.gain : Token → ℤ
  | .operator op => op.gain
  | .paren _ => 0
  | _ => 1

/-! ### Taking in tokens -/

namespace Assembly

open Grammar (applyAll applyAll_cons)

/-- All that a token can do to the state of an assembly. -/
inductive Takes (state : Assembly) : Token → Assembly → Prop
  | operand {token : Token} {e : Expr} : Expr.ofToken? token = some e →
      Takes state token ⟨state.pending, e :: state.operands⟩
  | operator (op : Operator) {waiting : List Operator} {pending : List Pending}
      {operands : List Expr} : state.pending = waiting.map .operator ++ pending →
      applyAll waiting state.operands = .ok operands →
      Takes state (.operator op) ⟨.operator op :: pending, operands⟩
  | opening : Takes state (.paren .left) ⟨.barrier :: state.pending, state.operands⟩
  | closing {waiting : List Operator} {pending : List Pending} {operands : List Expr} :
      state.pending = waiting.map .operator ++ .barrier :: pending →
      applyAll waiting state.operands = .ok operands →
      Takes state (.paren .right) ⟨pending, operands⟩

/-- All that several tokens can do one after the other. -/
inductive TakesAll : Assembly → List Token → Assembly → Prop
  | nil (state : Assembly) : TakesAll state [] state
  | cons {state next last : Assembly} {token : Token} {tokens : List Token} :
      Takes state token next → TakesAll next tokens last → TakesAll state (token :: tokens) last

/-- What taking in an operator consists of: a binary one needs neighbours, and each has others
applied before it waits. -/
lemma push_operator (state : Assembly) (op : Operator) (previous following : Option Token) :
    state.push previous (.operator op) following =
      (if op.isUnary then .ok () else op.checkNeighbours previous following) >>= fun _ =>
        (fun way : Assembly => ⟨.operator op :: way.pending, way.operands⟩) <$>
          makeWay op state.pending state.operands := by
  unfold push
  dsimp only
  split <;> rfl

/-- A token is taken in in one of the possible ways. -/
lemma takes_of_push {state next : Assembly} {previous following : Option Token} {token : Token}
    (h : state.push previous token following = .ok next) : Takes state token next := by
  cases token with
  | operator op =>
    rw [push_operator] at h
    obtain ⟨-, -, h⟩ := Outcome.bind_eq_ok_iff.1 h
    obtain ⟨way, hway, rfl⟩ := Outcome.map_eq_ok_iff.1 h
    obtain ⟨waiting, hpending, happly⟩ := Grammar.exists_applyAll_of_makeWay hway
    exact .operator op hpending happly
  | paren side =>
    cases side with
    | left =>
      obtain rfl := Except.ok.inj h
      exact .opening
    | right =>
      obtain ⟨waiting, hpending, happly⟩ := Grammar.exists_applyAll_of_close h
      exact .closing hpending happly
  | _ =>
    obtain rfl := Except.ok.inj h
    exact .operand rfl

/-- The tokens of a run are taken in one after the other. -/
lemma takesAll_of_run {state last : Assembly} {previous : Option Token} {tokens : List Token}
    (h : state.run previous tokens = .ok last) : TakesAll state tokens last := by
  induction tokens generalizing state previous with
  | nil =>
    obtain rfl := Except.ok.inj h
    exact .nil state
  | cons token tokens ih =>
    obtain ⟨next, hpush, h⟩ := Outcome.bind_eq_ok_iff.1 h
    exact .cons (takes_of_push hpush) (ih h)

/-- Tokens that are assembled are all taken in.  At the end only operators wait, and applying them
leaves the result, or nothing if the result is empty. -/
lemma exists_takesAll {tokens : List Token} {e : Expr} (h : Expr.assemble tokens = .ok e) :
    ∃ (waiting : List Operator) (operands results : List Expr),
      TakesAll {} tokens ⟨waiting.map .operator, operands⟩ ∧
        applyAll waiting operands = .ok results ∧ (results = [] ∧ e = .empty ∨ results = [e]) := by
  obtain ⟨last, hrun, h⟩ := Outcome.bind_eq_ok_iff.1 h
  obtain ⟨results, hfinish, h⟩ := Outcome.bind_eq_ok_iff.1 h
  obtain ⟨waiting, hpending, happly⟩ := Grammar.exists_applyAll_of_finish hfinish
  refine ⟨waiting, last.operands, results, hpending ▸ takesAll_of_run hrun, happly, ?_⟩
  split at h
  · exact Or.inl ⟨rfl, (Except.ok.inj h).symm⟩
  · exact Or.inr (congrArg (fun t => [t]) (Except.ok.inj h))
  · exact nomatch h

/-! ### Counting operands -/

/-- Waiting operators gain what the operators gain. -/
lemma sum_gain_map_operator (waiting : List Operator) :
    ((waiting.map Pending.operator).map Pending.gain).sum = (waiting.map Operator.gain).sum := by
  rw [List.map_map]
  rfl

/-- Applying operators makes the operands more by what the operators gain. -/
lemma length_applyAll {waiting : List Operator} {operands results : List Expr}
    (h : applyAll waiting operands = .ok results) :
    (results.length : ℤ) = operands.length + (waiting.map Operator.gain).sum := by
  induction waiting generalizing operands with
  | nil =>
    obtain rfl := Except.ok.inj h
    simp
  | cons op waiting ih =>
    rw [applyAll_cons] at h
    obtain ⟨next, happly, h⟩ := Outcome.bind_eq_ok_iff.1 h
    have hrest := ih h
    rw [List.map_cons, List.sum_cons, Operator.gain]
    rcases Operator.applyTo_eq_ok happly with ⟨hop, e, rest, rfl, rfl⟩ | ⟨hop, l, r, rest, rfl, rfl⟩
    · rw [hop, if_pos rfl, hrest]
      simp
    · rw [hop, if_neg Bool.false_ne_true, hrest]
      simp only [List.length_cons]
      push_cast
      ring

/-- The number of operands there will be when all that waits has been applied. -/
def balance (state : Assembly) : ℤ :=
  state.operands.length + (state.pending.map Pending.gain).sum

/-- A token changes the balance by its gain. -/
lemma Takes.balance_eq {state next : Assembly} {token : Token} (h : Takes state token next) :
    next.balance = state.balance + token.gain := by
  cases h with
  | operand htoken =>
    have hgain : token.gain = 1 := by
      cases token with
      | operator op => exact nomatch htoken
      | paren side => exact nomatch htoken
      | _ => rfl
    rw [balance, balance, hgain, List.length_cons]
    push_cast
    ring
  | operator op hpending happly =>
    have hlength := length_applyAll happly
    rw [balance, balance, hpending, List.map_append, List.sum_append, sum_gain_map_operator,
      List.map_cons, List.sum_cons, hlength, Pending.gain, Token.gain]
    ring
  | opening => simp [balance, Pending.gain, Token.gain]
  | closing hpending happly =>
    have hlength := length_applyAll happly
    rw [balance, balance, hpending, List.map_append, List.sum_append, sum_gain_map_operator,
      List.map_cons, List.sum_cons, hlength, Pending.gain, Token.gain]
    ring

/-- Tokens change the balance by what they gain together. -/
lemma TakesAll.balance_eq {state last : Assembly} {tokens : List Token}
    (h : TakesAll state tokens last) :
    last.balance = state.balance + (tokens.map Token.gain).sum := by
  induction h with
  | nil state => simp
  | cons htakes _ ih =>
    rw [ih, htakes.balance_eq, List.map_cons, List.sum_cons]
    ring

/-- Tokens that are assembled to an expression gain one operand. -/
lemma sum_gain_of_assemble {tokens : List Token} {e : Expr} (h : Expr.assemble tokens = .ok e)
    (he : e ≠ .empty) : (tokens.map Token.gain).sum = 1 := by
  obtain ⟨waiting, operands, results, htakes, happly, hresults⟩ := exists_takesAll h
  have hresult : results = [e] := hresults.resolve_left fun hnone => he hnone.2
  have hbalance := htakes.balance_eq
  have hlength := length_applyAll happly
  rw [balance, balance, sum_gain_map_operator, ← hlength, hresult] at hbalance
  simpa using hbalance.symm

/-! ### Open parentheses -/

/-- The number of parentheses that are open. -/
def depth (state : Assembly) : ℕ :=
  state.pending.count .barrier

/-- Waiting operators are no open parentheses. -/
lemma count_barrier_append (waiting : List Operator) (pending : List Pending) :
    (waiting.map Pending.operator ++ pending).count .barrier = pending.count .barrier := by
  have hnone : (waiting.map Pending.operator).count .barrier = 0 := by
    rw [List.count_eq_zero]
    intro hmem
    obtain ⟨op, -, hop⟩ := List.mem_map.1 hmem
    exact nomatch hop
  rw [List.count_append, hnone, Nat.zero_add]

/-- An operator or an operand opens and closes no parenthesis. -/
lemma Takes.depth_eq {state next : Assembly} {token : Token} (h : Takes state token next)
    (htoken : ∀ side, token ≠ .paren side) : next.depth = state.depth := by
  cases h with
  | operand _ => rfl
  | operator op hpending _ =>
    rw [depth, depth, hpending, count_barrier_append, List.count_cons_of_ne Pending.noConfusion]
  | opening => exact absurd rfl (htoken .left)
  | closing _ _ => exact absurd rfl (htoken .right)

/-- An opening parenthesis is open afterwards. -/
lemma Takes.depth_opening {state next : Assembly} (h : Takes state (.paren .left) next) :
    next.depth = state.depth + 1 := by
  cases h with
  | operand htoken => exact nomatch htoken
  | opening => exact List.count_cons_self

/-- A closing parenthesis closes one that is open. -/
lemma Takes.depth_closing {state next : Assembly} (h : Takes state (.paren .right) next) :
    state.depth = next.depth + 1 := by
  cases h with
  | operand htoken => exact nomatch htoken
  | closing hpending _ =>
    rw [depth, depth, hpending, count_barrier_append, List.count_cons_self]

/-! ### Invariants of expressions -/

section Invariant

variable {P : Expr → Prop} (hnegation : ∀ e, P e → P (.negation e))
  (hjoin : ∀ op l r, P l → P r → P (.join op l r))
  (hdivision : ∀ l r, P l → P r → P (.division l r))

include hnegation hjoin hdivision

/-- What operators keep is true of all operands after they have been applied. -/
lemma forall_mem_applyAll {waiting : List Operator} {operands results : List Expr}
    (hoperands : ∀ e ∈ operands, P e) (h : applyAll waiting operands = .ok results) :
    ∀ e ∈ results, P e := by
  induction waiting generalizing operands with
  | nil =>
    obtain rfl := Except.ok.inj h
    exact hoperands
  | cons op waiting ih =>
    rw [applyAll_cons] at h
    obtain ⟨next, happly, h⟩ := Outcome.bind_eq_ok_iff.1 h
    refine ih ?_ h
    rcases Operator.applyTo_eq_ok happly with ⟨-, e, rest, rfl, rfl⟩ | ⟨-, l, r, rest, rfl, rfl⟩
    · rw [List.forall_mem_cons] at hoperands ⊢
      refine ⟨?_, hoperands.2⟩
      unfold Operator.signed
      split
      · exact hnegation e hoperands.1
      · exact hoperands.1
    · rw [List.forall_mem_cons, List.forall_mem_cons] at hoperands
      obtain ⟨hr, hl, hrest⟩ := hoperands
      rw [List.forall_mem_cons]
      refine ⟨?_, hrest⟩
      cases op with
      | minus => exact hjoin .sum l _ hl (hnegation r hr)
      | times => exact hjoin .product l r hl hr
      | divide => exact hdivision l r hl hr
      | _ => exact hjoin .sum l r hl hr

/-- What operators keep and the operands among the tokens satisfy is true of all operands after the
tokens have been taken in. -/
lemma TakesAll.forall_mem {state last : Assembly} {tokens : List Token}
    (h : TakesAll state tokens last)
    (htokens : ∀ t ∈ tokens, ∀ e, Expr.ofToken? t = some e → P e)
    (hstate : ∀ e ∈ state.operands, P e) : ∀ e ∈ last.operands, P e := by
  induction h with
  | nil state => exact hstate
  | cons htakes _ ih =>
    rw [List.forall_mem_cons] at htokens
    refine ih htokens.2 ?_
    cases htakes with
    | operand htoken => exact List.forall_mem_cons.2 ⟨htokens.1 _ htoken, hstate⟩
    | operator op _ happly =>
      exact forall_mem_applyAll hnegation hjoin hdivision hstate happly
    | opening => exact hstate
    | closing _ happly => exact forall_mem_applyAll hnegation hjoin hdivision hstate happly

/-- What operators keep and the operands among the tokens satisfy is true of the expression that is
assembled, unless it is empty. -/
lemma result_invariant {tokens : List Token} {e : Expr}
    (htokens : ∀ t ∈ tokens, ∀ e, Expr.ofToken? t = some e → P e)
    (h : Expr.assemble tokens = .ok e) : e = .empty ∨ P e := by
  obtain ⟨waiting, operands, results, htakes, happly, hresults⟩ := exists_takesAll h
  have hoperands := htakes.forall_mem hnegation hjoin hdivision htokens
    fun t ht => absurd ht List.not_mem_nil
  have hall := forall_mem_applyAll hnegation hjoin hdivision hoperands happly
  rcases hresults with ⟨-, he⟩ | rfl
  · exact Or.inl he
  · exact Or.inr (hall e List.mem_cons_self)

end Invariant

end Assembly

end TermAlgebra
