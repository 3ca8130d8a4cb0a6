import Mathlib.Tactic
import TermAlgebra.Proofs.Parentheses

/-!
# What is accepted

Which lists of tokens are assembled to an expression.

`Grammar.Regular` says of tokens only which may stand side by side and that the parentheses match.
Such tokens are exactly the sentences of the grammar (`Grammar.Derives.regular`,
`Grammar.Regular.derives`).  Assembly counts operands, so it does not find all other tokens out: a
place where one operand follows another (`Token.juxtapositions`) makes up for a place where an
operand is missing (`Token.gaps`).  Tokens are accepted only if there are as many of the ones as of
the others, and among tokens without juxtaposed operands exactly the sentences are accepted
(`Grammar.derives_iff_assemble`).
-/

namespace TermAlgebra

/-! ### Juxtaposed and missing operands -/

namespace Token

/-- The number of places where an operand ends and the next token starts another one. -/
def juxtapositions (previous : Option Token) : List Token → ℕ
  | [] => 0
  | t :: ts =>
    (if previous.any endsOperand && t.startsOperand then 1 else 0) + juxtapositions (some t) ts

/-- The number of places where no operand ends and none starts. -/
def gaps (previous : Option Token) : List Token → ℕ
  | [] => if previous.any endsOperand then 0 else 1
  | t :: ts => (if previous.any endsOperand || t.startsOperand then 0 else 1) + gaps (some t) ts

/-- Each token either starts an operand or follows one, so the juxtapositions and the gaps tell by
how many there are more operands than binary operators. -/
lemma juxtapositions_add_one (previous : Option Token) (ts : List Token) :
    (juxtapositions previous ts : ℤ) + 1 =
      gaps previous ts + (if previous.any endsOperand then 1 else 0) + (ts.map gain).sum := by
  induction ts generalizing previous with
  | nil => cases h : previous.any endsOperand <;> simp [juxtapositions, gaps, h]
  | cons t ts ih =>
    have hrest := ih (some t)
    have hgain : t.gain =
        (if t.startsOperand then 1 else 0) + (if t.endsOperand then 1 else 0) - 1 := by
      cases t with
      | operator op =>
        cases op <;> rfl
      | paren side => cases side <;> rfl
      | _ => rfl
    rw [Option.any_some] at hrest
    rw [juxtapositions, gaps, List.map_cons, List.sum_cons, hgain]
    cases previous.any endsOperand <;> cases t.startsOperand <;> push_cast <;> simp <;> omega

variable {previous : Option Token}

/-- After an operand a token is meant as it is written. -/
lemma resolved_of_ended (h : previous.any endsOperand = true) (t : Token) :
    t.resolved previous = t := by
  cases t with
  | operator op => exact if_pos h
  | _ => rfl

/-- Where no operand ends an operator is meant as a sign. -/
lemma resolved_operator_of_not_ended (h : previous.any endsOperand = false) (op : Operator) :
    (operator op).resolved previous = operator op.asUnary :=
  if_neg (by rw [h]; exact Bool.false_ne_true)

/-- Operands are meant as they are written. -/
lemma resolved_of_isOperand {t : Token} (h : t.isOperand = true) : t.resolved previous = t := by
  cases t with
  | operator op => exact nomatch h
  | _ => rfl

/-- An operand ends with a token that is one. -/
lemma endsOperand_of_isOperand {t : Token} (h : t.isOperand = true) : t.endsOperand = true := by
  rw [endsOperand, h, Bool.true_or]

/-- An operand starts with a token that is one. -/
lemma startsOperand_of_isOperand {t : Token} (h : t.isOperand = true) :
    t.startsOperand = true := by
  cases t with
  | operator op => exact nomatch h
  | paren side => exact nomatch h
  | _ => rfl

/-- A token that does not start an operand after one has ended, or starts one where none has ended,
is not juxtaposed to what is before it. -/
lemma juxtapositions_cons (t : Token) (ts : List Token)
    (h : (previous.any endsOperand && t.startsOperand) = false) :
    juxtapositions previous (t :: ts) = juxtapositions (some t) ts := by
  rw [juxtapositions, h, if_neg Bool.false_ne_true, Nat.zero_add]

end Token

namespace Grammar

/-! ### Regular tokens -/

/-- Whether tokens, all signs written as binary operators, can complete an expression after tokens
that leave some parentheses open, given whether an operand ends with these. -/
inductive Regular : Bool → ℕ → List Token → Prop
  | done : Regular true 0 []
  | operand {depth : ℕ} {t : Token} {ts : List Token} : t.isOperand = true →
      Regular true depth ts → Regular false depth (t :: ts)
  | sign {depth : ℕ} {op : Operator} {ts : List Token} : op.isUnary = false →
      op.asUnary.isUnary = true → Regular false depth ts →
      Regular false depth (.operator op :: ts)
  | opening {depth : ℕ} {ts : List Token} : Regular false (depth + 1) ts →
      Regular false depth (.paren .left :: ts)
  | binary {depth : ℕ} {op : Operator} {ts : List Token} : op.isUnary = false →
      Regular false depth ts → Regular true depth (.operator op :: ts)
  | closing {depth : ℕ} {ts : List Token} : Regular true depth ts →
      Regular true (depth + 1) (.paren .right :: ts)

/-- A phrase may stand where an operand is missing. -/
lemma Derives.regular {level : Level} {us : List Token} {e : Expr} (h : Derives level us e)
    {depth : ℕ} {rest : List Token} (hrest : Regular true depth rest) :
    Regular false depth (us ++ rest) := by
  induction h generalizing depth rest with
  | add _ _ hl hr =>
    rw [List.append_assoc]
    exact hl (.binary rfl (hr hrest))
  | subtract _ _ hl hr =>
    rw [List.append_assoc]
    exact hl (.binary rfl (hr hrest))
  | term _ ih => exact ih hrest
  | multiply _ _ hl hr =>
    rw [List.append_assoc]
    exact hl (.binary rfl (hr hrest))
  | divide _ _ hl hr =>
    rw [List.append_assoc]
    exact hl (.binary rfl (hr hrest))
  | signed _ ih => exact ih hrest
  | positive _ ih => exact .sign rfl rfl (ih hrest)
  | negative _ ih => exact .sign rfl rfl (ih hrest)
  | operand _ ih => exact ih hrest
  | integer n => exact .operand rfl hrest
  | decimal d => exact .operand rfl hrest
  | name s => exact .operand rfl hrest
  | enclosed _ ih =>
    rw [List.append_assoc]
    exact .opening (ih (.closing hrest))

/-- Regular tokens have no juxtaposed operands. -/
lemma Regular.juxtapositions_eq_zero {ended : Bool} {depth : ℕ} {us : List Token}
    (h : Regular ended depth us) {previous : Option Token}
    (hprevious : previous.any Token.endsOperand = ended) :
    Token.juxtapositions previous (Token.resolveAfter previous us) = 0 := by
  induction h generalizing previous with
  | done => rfl
  | operand ht _ ih =>
    rw [Token.resolveAfter, Token.resolved_of_isOperand ht, Token.juxtapositions_cons]
    · exact ih (Token.endsOperand_of_isOperand ht)
    · rw [hprevious, Bool.false_and]
  | sign _ _ _ ih =>
    rw [Token.resolveAfter, Token.resolved_operator_of_not_ended hprevious,
      Token.juxtapositions_cons]
    · exact ih rfl
    · rw [hprevious, Bool.false_and]
  | opening _ ih =>
    refine (Token.juxtapositions_cons (.paren .left) _ ?_).trans (ih rfl)
    rw [hprevious, Bool.false_and]
  | binary hop _ ih =>
    rw [Token.resolveAfter, Token.resolved_of_ended hprevious, Token.juxtapositions_cons]
    · exact ih rfl
    · rw [Token.startsOperand, hop, Bool.and_false]
  | closing _ ih =>
    refine (Token.juxtapositions_cons (.paren .right) _ ?_).trans (ih rfl)
    exact Bool.and_false _

/-! ### Regular tokens are sentences -/

/-- Whether a term completes the tokens to an expression. -/
def AwaitsTerm (ts : List Token) : Prop :=
  ∀ us e, Derives .term us e → ∃ e', Derives .expression (ts ++ us) e'

/-- Whether a signed operand completes the tokens to a term. -/
def AwaitsSigned (ts : List Token) : Prop :=
  ∀ us e, Derives .signed us e → ∃ e', Derives .term (ts ++ us) e'

/-- Nothing needs to stand before a term. -/
lemma awaitsTerm_nil : AwaitsTerm [] :=
  fun _ e h => ⟨e, .term h⟩

/-- Nothing needs to stand before a signed operand. -/
lemma awaitsSigned_nil : AwaitsSigned [] :=
  fun _ e h => ⟨e, .signed h⟩

/-- A signed operand may follow a sign that stands where it is awaited. -/
lemma AwaitsSigned.sign {ts : List Token} (h : AwaitsSigned ts) {op : Operator}
    (hbinary : op.isUnary = false) (hsign : op.asUnary.isUnary = true) :
    AwaitsSigned (ts ++ [.operator op]) := by
  intro us e hus
  rw [List.append_assoc]
  cases op with
  | plus => exact h _ e (.positive hus)
  | minus => exact h _ _ (.negative hus)
  | _ => exact nomatch hsign.symm.trans hbinary

/-- A term is awaited after an operator of a sum. -/
lemma AwaitsTerm.binary {ts us : List Token} {t : Expr} (h : AwaitsTerm ts)
    (hterm : Derives .term us t) {op : Operator} (hbinary : op.isUnary = false)
    (hsum : op.precedence = Level.expression.precedence) :
    AwaitsTerm (ts ++ (us ++ [.operator op])) := by
  obtain ⟨e, he⟩ := h us t hterm
  intro vs r hvs
  rw [← List.append_assoc ts, List.append_assoc (ts ++ us)]
  cases op with
  | plus => exact ⟨_, .add he hvs⟩
  | minus => exact ⟨_, .subtract he hvs⟩
  | times | divide => exact nomatch hsum
  | unaryPlus | unaryMinus => exact nomatch hbinary

/-- A signed operand is awaited after an operator of a product. -/
lemma awaitsSigned_binary {us : List Token} {t : Expr} (hterm : Derives .term us t)
    {op : Operator} (hbinary : op.isUnary = false)
    (hproduct : op.precedence = Level.term.precedence) :
    AwaitsSigned (us ++ [.operator op]) := by
  intro vs r hvs
  rw [List.append_assoc]
  cases op with
  | times => exact ⟨_, .multiply hterm hvs⟩
  | divide => exact ⟨_, .divide hterm hvs⟩
  | plus | minus => exact nomatch hproduct
  | unaryPlus | unaryMinus => exact nomatch hbinary

/-- The tokens read so far, up to the last of the parentheses that they leave open: before each of
them an expression has been begun that awaits what is in the parentheses. -/
inductive Opened : ℕ → List Token → Prop
  | nil : Opened 0 []
  | cons {depth : ℕ} {before left current : List Token} : Opened depth before → AwaitsTerm left →
      AwaitsSigned current → Opened (depth + 1) (before ++ (left ++ (current ++ [.paren .left])))

/-- Whether tokens are a term, or await a signed operand that makes them one. -/
def Begins : Bool → List Token → Prop
  | true, ts => ∃ e, Derives .term ts e
  | false, ts => AwaitsSigned ts

/-- Regular tokens complete what has been read before them to an expression. -/
lemma Regular.exists_derives {ended : Bool} {depth : ℕ} {us : List Token}
    (h : Regular ended depth us) {before left current : List Token} (hbefore : Opened depth before)
    (hleft : AwaitsTerm left) (hcurrent : Begins ended current) :
    ∃ e, Derives .expression (before ++ (left ++ (current ++ us))) e := by
  induction h generalizing before left current with
  | done =>
    obtain ⟨e, he⟩ := hcurrent
    obtain rfl : before = [] := by
      cases hbefore
      rfl
    rw [List.nil_append, List.append_nil]
    exact hleft current e he
  | @operand _ t us ht _ ih =>
    have hoperand : ∃ e, Derives .operand [t] e := by
      cases t with
      | integer n => exact ⟨_, .integer n⟩
      | decimal d => exact ⟨_, .decimal d⟩
      | name s => exact ⟨_, .name s⟩
      | _ => exact nomatch ht
    obtain ⟨e, he⟩ := hoperand
    rw [← List.singleton_append, ← List.append_assoc current]
    exact ih hbefore hleft (hcurrent _ e (.operand he))
  | @sign _ op us hbinary hsign _ ih =>
    rw [← List.singleton_append, ← List.append_assoc current]
    exact ih hbefore hleft (AwaitsSigned.sign hcurrent hbinary hsign)
  | @opening _ us _ ih =>
    have hinner := ih (.cons hbefore hleft hcurrent) awaitsTerm_nil awaitsSigned_nil
    simpa only [List.append_assoc, List.nil_append, List.singleton_append] using hinner
  | @binary _ op us hop _ ih =>
    obtain ⟨t, ht⟩ := hcurrent
    rw [← List.singleton_append]
    -- A sum goes on with a new term, a product with the same one.
    cases op with
    | plus | minus =>
      have hnext := ih hbefore (hleft.binary ht hop (by decide)) awaitsSigned_nil
      simpa only [List.append_assoc, List.nil_append] using hnext
    | times | divide =>
      rw [← List.append_assoc current]
      exact ih hbefore hleft (awaitsSigned_binary ht hop (by decide))
    | unaryPlus | unaryMinus => exact nomatch hop
  | @closing _ us _ ih =>
    obtain ⟨t, ht⟩ := hcurrent
    cases hbefore with
    | cons hbefore hleft' hcurrent' =>
      obtain ⟨e, he⟩ := hleft current t ht
      have hnext := ih hbefore hleft' (hcurrent' _ _ (.operand (.enclosed he)))
      simpa only [List.append_assoc, List.cons_append, List.nil_append, List.singleton_append]
        using hnext

/-- Regular tokens are a sentence of the grammar. -/
lemma Regular.derives {us : List Token} (h : Regular false 0 us) :
    ∃ e, Derives .expression us e :=
  h.exists_derives .nil awaitsTerm_nil awaitsSigned_nil

/-! ### Accepted tokens -/

/-- Tokens that are taken in with all parentheses closed at the end are regular, if there is neither
a juxtaposition nor a gap. -/
lemma regular_of_takesAll {us : List Token} (hus : ∀ op, .operator op ∈ us → op.isUnary = false)
    {previous : Option Token} {state last : Assembly}
    (h : Assembly.TakesAll state (Token.resolveAfter previous us) last) (hlast : last.depth = 0)
    (hjuxtapositions : Token.juxtapositions previous (Token.resolveAfter previous us) = 0)
    (hgaps : Token.gaps previous (Token.resolveAfter previous us) = 0) :
    Regular (previous.any Token.endsOperand) state.depth us := by
  induction us generalizing previous state with
  | nil =>
    cases h
    rw [Token.resolveAfter, Token.gaps] at hgaps
    cases hended : previous.any Token.endsOperand with
    | true => rw [hlast]; exact .done
    | false => simp [hended] at hgaps
  | cons t us ih =>
    rw [Token.resolveAfter] at h hjuxtapositions hgaps
    rw [Token.juxtapositions, Nat.add_eq_zero_iff] at hjuxtapositions
    rw [Token.gaps, Nat.add_eq_zero_iff] at hgaps
    -- The token starts an operand exactly where none has ended.
    have hstarts : (t.resolved previous).startsOperand = !previous.any Token.endsOperand := by
      have hone := hjuxtapositions.1
      have hother := hgaps.1
      revert hone hother
      cases previous.any Token.endsOperand <;> cases (t.resolved previous).startsOperand <;> simp
    obtain _ | ⟨htakes, hrest⟩ := h
    have hnext := ih (fun op hop => hus op (List.mem_cons_of_mem t hop)) hrest hjuxtapositions.2
      hgaps.2
    rw [Option.any_some] at hnext
    by_cases hoperand : t.isOperand = true
    · rw [Token.resolved_of_isOperand hoperand] at hstarts htakes hnext
      rw [Token.startsOperand_of_isOperand hoperand] at hstarts
      rw [Token.endsOperand_of_isOperand hoperand, htakes.depth_eq] at hnext
      · rw [Bool.eq_false_of_not_eq_true' hstarts.symm]
        exact .operand hoperand hnext
      · rintro side rfl
        exact Bool.false_ne_true hoperand
    cases t with
    | operator op =>
      have hop := hus op List.mem_cons_self
      cases hended : previous.any Token.endsOperand with
      | false =>
        rw [Token.resolved_operator_of_not_ended hended] at hstarts htakes hnext
        rw [htakes.depth_eq fun side => Token.noConfusion] at hnext
        exact .sign hop (hstarts.trans (by rw [hended]; rfl)) hnext
      | true =>
        rw [Token.resolved_of_ended hended] at htakes hnext
        rw [htakes.depth_eq fun side => Token.noConfusion] at hnext
        exact .binary hop hnext
    | paren side =>
      cases side with
      | left =>
        rw [Bool.eq_false_of_not_eq_true' hstarts.symm]
        exact .opening (htakes.depth_opening ▸ hnext)
      | right =>
        rw [Bool.eq_true_of_not_eq_false' hstarts.symm, htakes.depth_closing]
        exact .closing hnext
    | _ => exact absurd rfl hoperand

/-- The tree of a phrase is not empty. -/
lemma Derives.ne_empty {level : Level} {us : List Token} {e : Expr} (h : Derives level us e) :
    e ≠ .empty := by
  have hjoin : ∀ op l r, Expr.join op l r ≠ .empty := by
    intro op l r
    obtain ⟨a, b, rest, hnode, -⟩ := Expr.join_eq_nary op l r
    rw [hnode]
    exact nofun
  induction h with
  | add | subtract | multiply => exact hjoin _ _ _
  | divide | negative | integer | decimal | name => exact nofun
  | term _ ih | signed _ ih | positive _ ih | operand _ ih | enclosed _ ih => exact ih

/-- Accepted tokens without juxtaposed operands are a sentence of the grammar. -/
lemma exists_derives_of_assemble {us : List Token}
    (hus : ∀ op, .operator op ∈ us → op.isUnary = false) {e : Expr}
    (h : Expr.assemble (Token.resolveSigns us) = .ok e)
    (hjuxtapositions : Token.juxtapositions none (Token.resolveSigns us) = 0)
    (hgaps : Token.gaps none (Token.resolveSigns us) = 0) : ∃ t, Derives .expression us t := by
  obtain ⟨waiting, operands, -, htakes, -⟩ := Assembly.exists_takesAll h
  have hclosed : Assembly.depth ⟨waiting.map .operator, operands⟩ = 0 := by
    have hcount := Assembly.count_barrier_append waiting []
    rwa [List.append_nil] at hcount
  exact (regular_of_takesAll hus htakes hclosed hjuxtapositions hgaps).derives

/-- Among tokens without juxtaposed operands exactly the sentences of the grammar are assembled to
an expression that is not empty.  Other tokens are assembled to one only if juxtaposed operands make
up for missing ones, and all tokens that are not accepted are refused with a fault of assembling. -/
theorem derives_iff_assemble {us : List Token}
    (hus : ∀ op, .operator op ∈ us → op.isUnary = false) :
    (∀ e, Derives .expression us e ↔ Expr.assemble (Token.resolveSigns us) = .ok e ∧ e ≠ .empty ∧
        Token.juxtapositions none (Token.resolveSigns us) = 0) ∧
      (∀ e, Expr.assemble (Token.resolveSigns us) = .ok e → e ≠ .empty →
        Token.juxtapositions none (Token.resolveSigns us) =
          Token.gaps none (Token.resolveSigns us)) ∧
      ∀ fault, Expr.assemble (Token.resolveSigns us) = .error fault →
        fault.isAssemblyFault = true := by
  have hcounts : ∀ e, Expr.assemble (Token.resolveSigns us) = .ok e → e ≠ .empty →
      Token.juxtapositions none (Token.resolveSigns us) =
        Token.gaps none (Token.resolveSigns us) := by
    intro e he hne
    have hgain := Assembly.sum_gain_of_assemble he hne
    have hcount := Token.juxtapositions_add_one none (Token.resolveSigns us)
    rw [hgain, Option.any_none, if_neg Bool.false_ne_true] at hcount
    omega
  have hassemble : ∀ e, Derives .expression us e →
      Expr.assemble (Token.resolveSigns us) = .ok e := by
    intro e he
    obtain ⟨resolved, waiting, operands, hreads⟩ := he.exists_reads
    exact hreads.assemble_eq
  refine ⟨fun e => ⟨fun he => ⟨hassemble e he, he.ne_empty, ?_⟩, ?_⟩, hcounts,
    Assembly.failsToAssemble_assemble _⟩
  · have hregular := he.regular Regular.done
    rw [List.append_nil] at hregular
    exact hregular.juxtapositions_eq_zero rfl
  · rintro ⟨he, hne, hjuxtapositions⟩
    obtain ⟨t, ht⟩ := exists_derives_of_assemble hus he hjuxtapositions
      ((hcounts e he hne).symm.trans hjuxtapositions)
    obtain rfl := Except.ok.inj ((hassemble t ht).symm.trans he)
    exact ht

/-- For instance a product of a sum in parentheses with a negated name is a sentence. -/
theorem derives_iff_assemble_product :
    Derives .expression [.paren .left, .name "x", .operator .plus, .integer 1, .paren .right,
        .operator .times, .operator .minus, .name "y"]
      (.product (.sum (.var "x") (.integer 1) []) (.negation (.var "y")) []) :=
  ((derives_iff_assemble (by simp [Operator.isUnary])).1 _).2 ⟨rfl, nofun, rfl⟩

/-- A difference without a right side is accepted if two operands stand on its left side. -/
theorem assemble_juxtaposed_difference :
    Expr.assemble (Token.resolveSigns [.name "w", .name "x", .operator .minus, .paren .left,
        .paren .right]) = .ok (.sum (.var "w") (.negation (.var "x")) []) ∧
      ¬ ∃ e, Derives .expression [.name "w", .name "x", .operator .minus, .paren .left,
        .paren .right] e := by
  refine ⟨rfl, fun ⟨e, he⟩ => ?_⟩
  have hregular := he.regular Regular.done
  have hnone : Token.juxtapositions none (Token.resolveSigns [.name "w", .name "x",
      .operator .minus, .paren .left, .paren .right]) = 0 := hregular.juxtapositions_eq_zero rfl
  exact absurd hnone (by decide)

end Grammar

end TermAlgebra
