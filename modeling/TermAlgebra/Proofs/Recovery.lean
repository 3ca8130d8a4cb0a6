import Mathlib.Tactic
import TermAlgebra.CommandLine
import TermAlgebra.Proofs.Lexing
import TermAlgebra.Proofs.Overflow
import TermAlgebra.Proofs.Parentheses
import TermAlgebra.Proofs.ShortLines

/-!
# Recovery

Which lines a session recovers from, and which ones break it off.

A line that is no expression is refused, and the session goes on.  `Session.breaking?` is the fault
of a line that is not dealt with: a fault of reading the line that does not lie in its form, or a
fault of simplifying the expression.  Writing an expression that was read, or a simplified one,
never fails (`Session.untilFault_report`), so these are the only faults that end a session, and all
of them come of numbers that are too large (`Session.breaking?_mem`).  No line has such a fault that
is without a decimal point and not longer than a numeral may be (`Session.breaking?_of_short`).  A
session answers its lines up to the first one that asks for its end or has such a fault
(`Session.outcome_run`).

How deeply expressions are nested is not limited here, so that a session is not broken off for lack
of space on the way down into one.
-/

namespace TermAlgebra

open Outcome (FailsOnly)

/-! ### Expressions that were read -/

namespace Expr

/-- The terms of an expression that can be written can be written. -/
lemma isWritable_of_mem_terms {op : AssocOp} {e : Expr} (h : e.isWritable = true) :
    ∀ t ∈ e.terms op, t.isWritable = true := by
  rcases eq_nary_or_not_isNary op e with ⟨a, b, rest, rfl⟩ | hother
  · rw [terms_nary]
    exact isWritable_nary_iff.1 h
  · rw [terms_of_not_isNary hother]
    exact List.forall_mem_singleton.2 h

/-- Joining expressions that can be written gives one that can be written. -/
lemma isWritable_join (op : AssocOp) (l r : Expr) (hl : l.isWritable = true)
    (hr : r.isWritable = true) : (join op l r).isWritable = true := by
  obtain ⟨a, b, rest, hnode, hterms⟩ := join_eq_nary op l r
  rw [hnode, isWritable_nary_iff, hterms, List.forall_mem_append]
  exact ⟨isWritable_of_mem_terms hl, isWritable_of_mem_terms hr⟩

/-- What operators keep and the operands that can be spelled satisfy is true of what a text is read
as, unless it is empty. -/
lemma parse_invariant {P : Expr → Prop} (hnegation : ∀ e, P e → P (negation e))
    (hjoin : ∀ op l r, P l → P r → P (join op l r))
    (hdivision : ∀ l r, P l → P r → P (division l r))
    (hoperand : ∀ t, Token.Lexical t → ∀ e, ofToken? t = some e → P e) {text : String} {e : Expr}
    (h : parse text = .ok e) : e = .empty ∨ P e := by
  obtain ⟨tokens, htokens, he⟩ := Outcome.bind_eq_ok_iff.1 h
  obtain ⟨lexed, hlex, rfl⟩ := Outcome.map_eq_ok_iff.1 htokens
  have hlexical := Token.lexical_of_mem_resolveAfter (Token.lexical_of_mem_lex _ lexed hlex) none
  exact Assembly.result_invariant hnegation hjoin hdivision
    (fun t ht => hoperand t (hlexical t ht)) he

/-- An expression that was read can be written. -/
lemma isWritable_of_parse {line : String} {e : Expr} (h : parse line = .ok e) :
    e.isWritable = true := by
  have hoperand : ∀ t, Token.Lexical t → ∀ e, ofToken? t = some e → e.isWritable = true := by
    intro t ht e he
    cases ht with
    | integer digits hdigits hlimit =>
      obtain rfl := Option.some.inj he
      exact Numeral.fits_value hdigits hlimit
    | operator op => exact nomatch he
    | paren side => exact nomatch he
    | _ =>
      obtain rfl := Option.some.inj he
      rfl
  have hdivision : ∀ l r : Expr, l.isWritable = true → r.isWritable = true →
      (division l r).isWritable = true := by
    intro l r hl hr
    rw [isWritable, hl, hr]
    rfl
  rcases parse_invariant (P := fun e => e.isWritable = true) (fun e he => he) isWritable_join
    hdivision hoperand h with rfl | he
  · rfl
  · exact he

/-- A text is read with the faults of cutting it into tokens, and with faults that lie in its
form. -/
lemma failsOnly_parse {P : Fault → Prop} (hP : ∀ fault, fault.isSyntactic = true → P fault)
    {text : String} (h : FailsOnly P (Token.lex text.toList)) : FailsOnly P (parse text) :=
  (h.map Token.resolveSigns).bind fun tokens _ =>
    (Assembly.failsToAssemble_assemble tokens).mono fun fault hfault =>
      hP fault (Fault.isSyntactic_of_isAssemblyFault hfault)

/-- A fault of reading a text lies in its form, or a numeral is too long. -/
lemma failsOnly_parse_numeral (text : String) :
    FailsOnly (fun fault => fault.isSyntactic = true ∨
      fault = .numeralTooLong (Numeral.digitLimit + 1)) (parse text) := by
  refine failsOnly_parse (fun _ => Or.inl) ((Token.failsOnly_lex text.toList).mono ?_)
  rintro fault (⟨remaining, rfl⟩ | rfl)
  · exact Or.inl rfl
  · exact Or.inr rfl

/-- A fault of reading a text lies in its form if the text is not longer than a numeral may be. -/
lemma failsOnly_parse_of_short {text : String} (hlength : text.length ≤ Numeral.digitLimit) :
    FailsOnly (fun fault => fault.isSyntactic = true) (parse text) := by
  rw [← String.length_toList] at hlength
  refine failsOnly_parse (fun _ => id) ((Token.failsOnly_lex_of_short _ hlength).mono ?_)
  rintro fault ⟨remaining, rfl⟩
  rfl

end Expr

namespace Session

/-! ### Lines that break a session off -/

/-- The fault of a line that asks for an expression to be simplified, if it is not dealt with: a
fault of reading the line that does not lie in its form, or a fault of simplification. -/
def failure? (line : String) : Option Fault :=
  match Expr.parse line with
  | .error fault => if fault.isSyntactic then none else some fault
  | .ok e =>
    match e.simplify with
    | .error fault => some fault
    | .ok _ => none

/-- The fault with which a line of input breaks a session off, if it does. -/
def breaking? (line : String) : Option Fault :=
  match Request.ofLine line with
  | .simplify line => failure? line
  | _ => none

/-- Nothing fails when expressions are reported that can be written. -/
lemma untilFault_report (debug : Bool) {e simplified : Expr} (he : e.isWritable = true)
    (hsimplified : simplified.isWritable = true) :
    (untilFault (report debug e simplified)).2 = none := by
  have hformula : ∀ e : Expr, e.isWritable = true → e.formula? = .ok e.formula ∧
      e.dump? = .ok e.dump := fun e he => ⟨if_pos he, if_pos he⟩
  unfold report
  rw [(hformula e he).1, (hformula e he).2, (hformula _ hsimplified).1, (hformula _ hsimplified).2]
  cases debug <;> rfl

/-- A fault in the form of a line is refused. -/
lemma isSome_refusal? (line : String) (fault : Fault) :
    (refusal? line fault).isSome = fault.isSyntactic := by
  cases fault <;> rfl

/-- An answer fails with the fault of the line that is not dealt with. -/
lemma outcome_answer (debug : Bool) (line : String) :
    (∃ accepted, (answer debug line).outcome = .ok accepted) ∧ failure? line = none ∨
      ∃ fault, (answer debug line).outcome = .error fault ∧ failure? line = some fault := by
  unfold answer failure?
  cases hparse : Expr.parse line with
  | error fault =>
    have hrefusal := isSome_refusal? line fault
    dsimp only
    cases hsyntactic : fault.isSyntactic with
    | true =>
      obtain ⟨⟨event, message⟩, hsome⟩ := Option.isSome_iff_exists.1 (hrefusal.trans hsyntactic)
      rw [hsome]
      exact Or.inl ⟨⟨false, rfl⟩, rfl⟩
    | false =>
      rw [hsyntactic, Option.isSome_eq_false_iff, Option.isNone_iff_eq_none] at hrefusal
      rw [hrefusal]
      exact Or.inr ⟨fault, rfl, rfl⟩
  | ok e =>
    dsimp only
    have hresult : e.simplify = e.simplifyTraced.result := rfl
    rw [← hresult]
    cases hsimplify : e.simplify with
    | error fault => exact Or.inr ⟨fault, rfl, rfl⟩
    | ok simple =>
      have hreport := untilFault_report debug (Expr.isWritable_of_parse hparse)
        (Expr.isWritable_of_simplify hsimplify)
      dsimp only
      rw [hreport]
      exact Or.inl ⟨⟨true, rfl⟩, rfl⟩

/-- Only numbers that are too large break a session off. -/
lemma breaking?_mem (line : String) :
    breaking? line ∈ [none, some (.numeralTooLong (Numeral.digitLimit + 1)),
      some .integerBeyondDecimal, some .integerTooLong] := by
  cases hrequest : Request.ofLine line with
  | simplify text =>
    rw [breaking?, hrequest]
    dsimp only
    unfold failure?
    cases hparse : Expr.parse text with
    | error fault =>
      rcases Expr.failsOnly_parse_numeral text fault hparse with hsyntactic | rfl
      · simp [hsyntactic]
      · simp [Fault.isSyntactic]
    | ok e =>
      dsimp only
      cases hsimplify : e.simplify with
      | error fault =>
        have hoverflow := Expr.onlyOverflows_simplifyUpTo _ e fault hsimplify
        rcases Fault.eq_of_isOverflow hoverflow with rfl | rfl
        · simp
        · simp
      | ok simple => simp
  | _ => simp [breaking?, hrequest]

/-- A line without a decimal point that is not longer than a numeral may be does not break a session
off. -/
lemma breaking?_of_short {line : String} (hpoint : '.' ∉ line.toList)
    (hlength : line.length ≤ Numeral.digitLimit) : breaking? line = none := by
  have hfailure : failure? line = none := by
    unfold failure?
    cases hparse : Expr.parse line with
    | error fault => exact if_pos (Expr.failsOnly_parse_of_short hlength fault hparse)
    | ok e =>
      obtain ⟨r, hr⟩ := Expr.exists_simplify_of_short hpoint hlength hparse
      dsimp only
      rw [hr]
  unfold breaking? Request.ofLine
  dsimp only
  split_ifs
  · rfl
  · rfl
  · rfl
  · exact hfailure

/-! ### Sessions -/

/-- The lines before the one that asks for the end. -/
def asked (lines : List String) : List String :=
  lines.takeWhile fun line => Request.ofLine line ≠ .exit

/-- A session is broken off by the first of its lines that breaks it off, and it prints something
for every line before. -/
lemma resume_eq (debug : Bool) (lines : List String) :
    (resume debug lines).fault = (asked lines).findSome? breaking? ∧
      (resume debug lines).chunks.length =
        ((asked lines).takeWhile fun line => (breaking? line).isNone).length + 1 := by
  induction lines generalizing debug with
  | nil => exact ⟨rfl, rfl⟩
  | cons line lines ih =>
    unfold asked at ih ⊢
    rw [resume]
    cases hrequest : Request.ofLine line with
    | exit => simp [hrequest]
    | toggleDebug => simp [hrequest, breaking?, Transcript.after, ih]
    | nothing => simp [hrequest, breaking?, Transcript.after, ih]
    | simplify text =>
      dsimp only
      rcases outcome_answer debug text with ⟨⟨accepted, hok⟩, hnone⟩ | ⟨fault, hfault, hsome⟩
      · simp [hrequest, breaking?, Transcript.after, ih, hok, hnone]
      · simp [hrequest, breaking?, hfault, hsome]

/-- Without a fault a session ends with status zero. -/
lemma outcome_run_eq (debug : Bool) (level : Log.Level) (lines : List String) :
    (CommandLine.Options.run ⟨none, debug, level⟩ lines).outcome =
      (resume debug lines).fault.elim (.ok 0) .error :=
  rfl

/-- A session answers its lines up to the first one that asks for its end or breaks it off, and
without such a fault its status is zero.  As nesting may be of any depth here, only numbers that are
too large break it off: a numeral that is too long, a whole number that is too large for a decimal
number beside it, and one that has become too long in a simplification.  A line that does so has a
decimal point or is longer than a numeral may be. -/
theorem outcome_run (debug : Bool) (level : Log.Level) (lines : List String) :
    (CommandLine.Options.run ⟨none, debug, level⟩ lines).outcome =
        ((asked lines).findSome? breaking?).elim (.ok 0) .error ∧
      (CommandLine.Options.run ⟨none, debug, level⟩ lines).chunks.length =
        ((asked lines).takeWhile fun line => (breaking? line).isNone).length + 2 ∧
      ∀ line, breaking? line ∈ [none, some (.numeralTooLong (Numeral.digitLimit + 1)),
          some .integerBeyondDecimal, some .integerTooLong] ∧
        (breaking? line = none ∨ '.' ∈ line.toList ∨ Numeral.digitLimit < line.length) := by
  obtain ⟨hfault, hchunks⟩ := resume_eq debug lines
  refine ⟨?_, congrArg (· + 1) hchunks, fun line => ⟨breaking?_mem line, ?_⟩⟩
  · rw [outcome_run_eq, hfault]
  · by_cases hpoint : '.' ∈ line.toList
    · exact Or.inr (Or.inl hpoint)
    · exact (Nat.lt_or_ge Numeral.digitLimit line.length).symm.imp (breaking?_of_short hpoint) .inr

/-- A whole number that is too large for a decimal number beside it breaks a session off, so that
the next line is not answered. -/
theorem outcome_run_product :
    (CommandLine.Options.run ⟨none, false, .warning⟩
      ["0.5 * 1" ++ String.ofList (List.replicate 309 '0'), "1 + 1"]).outcome =
        .error .integerBeyondDecimal := by
  decide +kernel

/-- A session ends with status zero if none of its lines has a decimal point or is longer than a
numeral may be. -/
theorem outcome_run_of_short (debug : Bool) (level : Log.Level) {lines : List String}
    (h : ∀ line ∈ lines, '.' ∉ line.toList ∧ line.length ≤ Numeral.digitLimit) :
    (CommandLine.Options.run ⟨none, debug, level⟩ lines).outcome = .ok 0 := by
  have hnone : (asked lines).findSome? breaking? = none := by
    refine List.findSome?_eq_none_iff.2 fun line hline => ?_
    obtain ⟨hpoint, hlength⟩ := h line ((List.takeWhile_sublist _).subset hline)
    exact breaking?_of_short hpoint hlength
  rw [outcome_run_eq, (resume_eq debug lines).1, hnone]
  rfl

end Session

end TermAlgebra
