import Mathlib.Tactic
import TermAlgebra.Expr.Assembly
import TermAlgebra.Proofs.Outcome

/-!
# The infix grammar

Assembling tokens implements the infix grammar with four levels of phrases: expressions are terms
with `+` and `-` between them, terms are signed operands with `*` and `/` between them, and an
operand is a constant, a name or an expression in parentheses.  All operators group to the left.

`Grammar.Derives` is the grammar together with the tree that each phrase stands for, and
`Grammar.Reads` says what assembly does with a phrase wherever it stands: it leaves some operators
of the level of the phrase waiting on top of what waited before, and their operands on top of those
built before, so that the tree of the phrase is built when they are applied.  Every phrase is read
in this way (`Grammar.Derives.exists_reads`), and hence an expression is assembled to its tree
(`Grammar.assemble_resolveSigns`).
-/

namespace TermAlgebra

/-- There are six operators, so what concerns all of them can be decided. -/
instance : Fintype Operator :=
  ⟨{.plus, .minus, .times, .divide, .unaryPlus, .unaryMinus}, fun op => by cases op <;> decide⟩

namespace Grammar

/-- The levels of phrases, from the loosest to the tightest. -/
inductive Level
  | expression
  | term
  | signed
  | operand
deriving DecidableEq, Repr

/-- The tokens of the phrases of each level, all signs written as binary operators, and the tree
that a phrase stands for. -/
inductive Derives : Level → List Token → Expr → Prop
  | add {ts us : List Token} {l r : Expr} : Derives .expression ts l → Derives .term us r →
      Derives .expression (ts ++ .operator .plus :: us) (.join .sum l r)
  | subtract {ts us : List Token} {l r : Expr} : Derives .expression ts l → Derives .term us r →
      Derives .expression (ts ++ .operator .minus :: us) (.join .sum l (.negation r))
  | term {ts : List Token} {e : Expr} : Derives .term ts e → Derives .expression ts e
  | multiply {ts us : List Token} {l r : Expr} : Derives .term ts l → Derives .signed us r →
      Derives .term (ts ++ .operator .times :: us) (.join .product l r)
  | divide {ts us : List Token} {l r : Expr} : Derives .term ts l → Derives .signed us r →
      Derives .term (ts ++ .operator .divide :: us) (.division l r)
  | signed {ts : List Token} {e : Expr} : Derives .signed ts e → Derives .term ts e
  | positive {ts : List Token} {e : Expr} : Derives .signed ts e →
      Derives .signed (.operator .plus :: ts) e
  | negative {ts : List Token} {e : Expr} : Derives .signed ts e →
      Derives .signed (.operator .minus :: ts) (.negation e)
  | operand {ts : List Token} {e : Expr} : Derives .operand ts e → Derives .signed ts e
  | integer (n : ℤ) : Derives .operand [.integer n] (.integer n)
  | decimal (d : Decimal) : Derives .operand [.decimal d] (.decimal d)
  | name (s : String) : Derives .operand [.name s] (.var s)
  | enclosed {ts : List Token} {e : Expr} : Derives .expression ts e →
      Derives .operand (.paren .left :: ts ++ [.paren .right]) e

/-- The least precedence of the operators that may wait when a phrase of a level has been read. No
operator waits after an operand. -/
def Level.precedence : Level → ℕ
  | expression => 2
  | term => 3
  | signed => 9
  | operand => 10

/-- Whether a phrase of a level can be read on top of what is pending without having it applied. -/
def Level.RestsOn (level : Level) : List Pending → Prop
  | .operator top :: _ =>
    ∀ op : Operator, level.precedence ≤ op.precedence → op.yieldsTo top = false
  | _ => True

/-- A tighter phrase rests on whatever a looser one rests on. -/
lemma Level.RestsOn.mono {level tighter : Level} (h : level.precedence ≤ tighter.precedence)
    {pending : List Pending} (hrests : level.RestsOn pending) : tighter.RestsOn pending := by
  cases pending with
  | nil => trivial
  | cons top pending =>
    cases top with
    | barrier => trivial
    | operator top => exact fun op hop => hrests op (h.trans hop)

/-- A sign binds as tightly as a signed operand. -/
lemma precedence_of_isUnary :
    ∀ op : Operator, op.isUnary = true → Level.signed.precedence ≤ op.precedence := by
  decide

/-- Only signs bind as tightly as a signed operand. -/
lemma isUnary_of_precedence :
    ∀ op : Operator, Level.signed.precedence ≤ op.precedence → op.isUnary = true := by
  decide

/-! ### Waiting operators -/

/-- The operands that are left when some operators are applied, the first one first. -/
def applyAll (waiting : List Operator) (operands : List Expr) : Except Fault (List Expr) :=
  waiting.foldlM (fun operands op => op.applyTo operands) operands

/-- Applying one more operator first. -/
lemma applyAll_cons (op : Operator) (waiting : List Operator) (operands : List Expr) :
    applyAll (op :: waiting) operands = op.applyTo operands >>= applyAll waiting :=
  List.foldlM_cons

/-- Operators are applied one list after the other. -/
lemma applyAll_append {waiting waiting' : List Operator} {operands operands' : List Expr}
    (h : applyAll waiting operands = .ok operands') :
    applyAll (waiting ++ waiting') operands = applyAll waiting' operands' := by
  unfold applyAll at h ⊢
  rw [List.foldlM_append, h]
  rfl

/-- An operator has those applied that it yields to, down to what it rests on. -/
lemma makeWay_append {op : Operator} {waiting : List Operator} {pending : List Pending}
    {operands operands' : List Expr} (hyield : ∀ w ∈ waiting, op.yieldsTo w = true)
    (hrests : ∀ top rest, pending = .operator top :: rest → op.yieldsTo top = false)
    (h : applyAll waiting operands = .ok operands') :
    Assembly.makeWay op (waiting.map .operator ++ pending) operands = .ok ⟨pending, operands'⟩ := by
  induction waiting generalizing operands with
  | nil =>
    obtain rfl := Except.ok.inj h
    cases pending with
    | nil => rfl
    | cons top pending =>
      cases top with
      | barrier => rfl
      | operator top =>
        have hstop := hrests top pending rfl
        simp only [List.map_nil, List.nil_append, Assembly.makeWay, hstop, Bool.false_eq_true,
          if_false]
  | cons w waiting ih =>
    rw [applyAll_cons] at h
    obtain ⟨next, hnext, h⟩ := Outcome.bind_eq_ok_iff.1 h
    have hw := hyield w List.mem_cons_self
    rw [List.map_cons, List.cons_append, Assembly.makeWay, if_pos hw, hnext]
    exact ih (fun v hv => hyield v (List.mem_cons_of_mem w hv)) h

/-- A closing parenthesis has the operators applied that wait since the opening one. -/
lemma close_append {waiting : List Operator} {pending : List Pending}
    {operands operands' : List Expr} (h : applyAll waiting operands = .ok operands') :
    Assembly.close (waiting.map .operator ++ .barrier :: pending) operands =
      .ok ⟨pending, operands'⟩ := by
  induction waiting generalizing operands with
  | nil =>
    obtain rfl := Except.ok.inj h
    rfl
  | cons w waiting ih =>
    rw [applyAll_cons] at h
    obtain ⟨next, hnext, h⟩ := Outcome.bind_eq_ok_iff.1 h
    rw [List.map_cons, List.cons_append, Assembly.close, hnext]
    exact ih h

/-- The end of the tokens has all waiting operators applied. -/
lemma finish_eq_applyAll (waiting : List Operator) (operands : List Expr) :
    Assembly.finish (waiting.map .operator) operands = applyAll waiting operands := by
  induction waiting generalizing operands with
  | nil => rfl
  | cons w waiting ih =>
    rw [List.map_cons, Assembly.finish, applyAll_cons]
    exact congrArg _ (funext ih)

/-! ### Reading phrases -/

/-- How a phrase is read wherever it stands: the tokens it becomes when its signs are told apart,
and what waits when they have been taken in. -/
structure Reads (level : Level) (tokens : List Token) (e : Expr) (resolved : List Token)
    (waiting : List Operator) (operands : List Expr) : Prop where
  resolve (previous : Option Token) (rest : List Token) : previous.any Token.endsOperand = false →
    Token.resolveAfter previous (tokens ++ rest) =
      resolved ++ Token.resolveAfter resolved.getLast? rest
  starts : resolved.head?.any Token.startsOperand = true
  ends : resolved.getLast?.any Token.endsOperand = true
  waits : ∀ op ∈ waiting, level.precedence ≤ op.precedence
  apply (below : List Expr) : applyAll waiting (operands ++ below) = .ok (e :: below)
  run (pending : List Pending) (below : List Expr) (previous : Option Token) (rest : List Token) :
    level.RestsOn pending →
      Assembly.run ⟨pending, below⟩ previous (resolved ++ rest) =
        Assembly.run ⟨waiting.map .operator ++ pending, operands ++ below⟩ resolved.getLast? rest

/-- A phrase is a phrase of every looser level. -/
lemma Reads.loosen {level tighter : Level} (h : level.precedence ≤ tighter.precedence)
    {tokens resolved : List Token} {e : Expr} {waiting : List Operator} {operands : List Expr}
    (hreads : Reads tighter tokens e resolved waiting operands) :
    Reads level tokens e resolved waiting operands where
  resolve := hreads.resolve
  starts := hreads.starts
  ends := hreads.ends
  waits op hop := h.trans (hreads.waits op hop)
  apply := hreads.apply
  run pending below previous rest hrests := hreads.run pending below previous rest (hrests.mono h)

/-- The last token of a phrase is the last one of what ends with the phrase. -/
lemma Reads.getLast?_append {level : Level} {tokens resolved : List Token} {e : Expr}
    {waiting : List Operator} {operands : List Expr}
    (h : Reads level tokens e resolved waiting operands) (ts : List Token) :
    (ts ++ resolved).getLast? = resolved.getLast? := by
  refine List.getLast?_append_of_ne_nil ts ?_
  rintro rfl
  exact Bool.noConfusion h.ends

/-- Taking in one token first. -/
lemma run_cons {state next : Assembly} {previous : Option Token} {token : Token}
    {rest : List Token} (h : state.push previous token rest.head? = .ok next) :
    state.run previous (token :: rest) = next.run (some token) rest := by
  rw [Assembly.run, h]
  rfl

/-- A sign waits at once. -/
lemma push_sign {op : Operator} (h : op.isUnary = true) (pending : List Pending)
    (operands : List Expr) (previous following : Option Token) :
    Assembly.push ⟨pending, operands⟩ previous (.operator op) following =
      .ok ⟨.operator op :: pending, operands⟩ := by
  have hnone : ∀ w ∈ ([] : List Operator), op.yieldsTo w = true :=
    fun w hw => absurd hw List.not_mem_nil
  have hrests : ∀ top rest, pending = .operator top :: rest → op.yieldsTo top = false :=
    fun top _ _ => Operator.yieldsTo_eq_false_of_isUnary h top
  have hway := makeWay_append hnone hrests (rfl : applyAll [] operands = .ok operands)
  rw [List.map_nil, List.nil_append] at hway
  simp only [Assembly.push, h, hway]
  rfl

/-- A binary operator waits when what it yields to has been applied. -/
lemma push_binary {op : Operator} (h : op.isUnary = false) {waiting : List Operator}
    {pending : List Pending} {operands operands' : List Expr} {previous following : Option Token}
    (hprevious : previous.any Token.endsOperand = true)
    (hfollowing : following.any Token.startsOperand = true)
    (hyield : ∀ w ∈ waiting, op.yieldsTo w = true)
    (hrests : ∀ top rest, pending = .operator top :: rest → op.yieldsTo top = false)
    (happly : applyAll waiting operands = .ok operands') :
    Assembly.push ⟨waiting.map .operator ++ pending, operands⟩ previous (.operator op) following =
      .ok ⟨.operator op :: pending, operands'⟩ := by
  have hcheck : op.checkNeighbours previous following = .ok () := by
    rw [Operator.checkNeighbours, hprevious, hfollowing]
  have hway := makeWay_append hyield hrests happly
  simp only [Assembly.push, h, hcheck, hway]
  rfl

/-- A token that is no operator is read as it is. -/
lemma reads_operand {token : Token} {e : Expr} (hends : token.endsOperand = true)
    (hstarts : token.startsOperand = true)
    (hresolved : ∀ previous, token.resolved previous = token)
    (hpush : ∀ (state : Assembly) (previous following : Option Token),
      state.push previous token following = .ok ⟨state.pending, e :: state.operands⟩) :
    Reads .operand [token] e [token] [] [e] where
  resolve previous rest _ := by
    rw [List.singleton_append, Token.resolveAfter, hresolved]
    rfl
  starts := hstarts
  ends := hends
  waits op hop := absurd hop List.not_mem_nil
  apply below := rfl
  run pending below previous rest _ := run_cons (hpush _ previous rest.head?)

/-- A sign is applied after what it stands in front of. -/
lemma Reads.sign {tokens resolved : List Token} {e : Expr} {waiting : List Operator}
    {operands : List Expr} (h : Reads .signed tokens e resolved waiting operands) (op : Operator)
    (hop : op.asUnary.isUnary = true) :
    Reads .signed (.operator op :: tokens) (op.asUnary.signed e)
      (.operator op.asUnary :: resolved) (waiting ++ [op.asUnary]) operands where
  resolve previous rest hprevious := by
    have hsign : Token.resolved previous (.operator op) = .operator op.asUnary := by
      rw [Token.resolved, hprevious]
      rfl
    have hlast := h.getLast?_append [.operator op.asUnary]
    rw [List.singleton_append] at hlast
    rw [List.cons_append, Token.resolveAfter, hsign, hlast]
    exact congrArg _ (h.resolve _ rest rfl)
  starts := hop
  ends := (congrArg _ (h.getLast?_append [.operator op.asUnary])).trans h.ends
  waits w hw := by
    rcases List.mem_append.1 hw with hw | hw
    · exact h.waits w hw
    · rw [List.mem_singleton.1 hw]
      exact precedence_of_isUnary _ hop
  apply below := by
    rw [applyAll_append (h.apply below), applyAll_cons, Operator.applyTo, if_pos hop]
    rfl
  run pending below previous rest _ := by
    have hrests : Level.RestsOn .signed (.operator op.asUnary :: pending) := by
      intro w hw
      exact Operator.yieldsTo_eq_false_of_isUnary (isUnary_of_precedence w hw) _
    rw [List.cons_append, run_cons (push_sign hop pending below previous _),
      h.run _ below _ rest hrests, ← h.getLast?_append [.operator op.asUnary]]
    simp

/-- An operator is applied after its operands, when what follows yields to it. -/
lemma Reads.binary {left right : Level} {tokens tokens' resolved resolved' : List Token}
    {l r : Expr} {waiting waiting' : List Operator} {operands operands' : List Expr}
    (hl : Reads left tokens l resolved waiting operands)
    (hr : Reads right tokens' r resolved' waiting' operands') (op : Operator)
    (hop : op.isUnary = false) (hleft : left.precedence ≤ op.precedence)
    (hlr : left.precedence ≤ right.precedence)
    (hyield : ∀ w : Operator, left.precedence ≤ w.precedence → op.yieldsTo w = true)
    (hrests : ∀ w : Operator, right.precedence ≤ w.precedence → w.yieldsTo op = false) :
    Reads left (tokens ++ .operator op :: tokens') (op.combined l r)
      (resolved ++ .operator op :: resolved') (waiting' ++ [op]) (operands' ++ [l]) where
  resolve previous rest hprevious := by
    have hbinary : Token.resolved resolved.getLast? (.operator op) = .operator op := by
      rw [Token.resolved, hl.ends]
      rfl
    have hlast := hr.getLast?_append (resolved ++ [.operator op])
    rw [List.append_assoc, List.singleton_append] at hlast
    rw [List.append_assoc, List.cons_append, hl.resolve _ _ hprevious, Token.resolveAfter, hbinary,
      hlast, List.append_assoc, List.cons_append]
    exact congrArg _ (congrArg _ (hr.resolve _ rest rfl))
  starts := by
    have hstarts := hl.starts
    cases resolved with
    | nil => exact Bool.noConfusion hstarts
    | cons t ts => exact hstarts
  ends := by
    have hlast := hr.getLast?_append (resolved ++ [.operator op])
    rw [List.append_assoc, List.singleton_append] at hlast
    rw [hlast]
    exact hr.ends
  waits w hw := by
    rcases List.mem_append.1 hw with hw | hw
    · exact hlr.trans (hr.waits w hw)
    · rw [List.mem_singleton.1 hw]
      exact hleft
  apply below := by
    rw [List.append_assoc, List.singleton_append, applyAll_append (hr.apply (l :: below)),
      applyAll_cons, Operator.applyTo, hop]
    rfl
  run pending below previous rest hpending := by
    have hfollowing : (resolved' ++ rest).head?.any Token.startsOperand = true := by
      have hstarts := hr.starts
      cases resolved' with
      | nil => exact Bool.noConfusion hstarts
      | cons t ts => exact hstarts
    have hstop : ∀ top others, pending = .operator top :: others → op.yieldsTo top = false := by
      rintro top others rfl
      exact hpending op hleft
    have hpush := push_binary hop hl.ends hfollowing (fun w hw => hyield w (hl.waits w hw)) hstop
      (hl.apply below)
    have hright : right.RestsOn (.operator op :: pending) := hrests
    have hlast := hr.getLast?_append (resolved ++ [.operator op])
    rw [List.append_assoc, List.singleton_append] at hlast
    rw [List.append_assoc, hl.run pending below previous _ hpending, List.cons_append,
      run_cons hpush, hr.run _ (l :: below) _ rest hright, hlast]
    simp

/-- An expression in parentheses is read as an operand. -/
lemma Reads.enclosed {tokens resolved : List Token} {e : Expr} {waiting : List Operator}
    {operands : List Expr} (h : Reads .expression tokens e resolved waiting operands) :
    Reads .operand (.paren .left :: tokens ++ [.paren .right]) e
      (.paren .left :: resolved ++ [.paren .right]) [] [e] where
  resolve previous rest _ := by
    have hresolve := h.resolve (some (.paren .left)) (.paren .right :: rest) rfl
    have hparen : ∀ previous side, Token.resolved previous (.paren side) = .paren side :=
      fun _ _ => rfl
    rw [List.append_assoc, List.singleton_append, List.cons_append, Token.resolveAfter, hparen,
      hresolve, Token.resolveAfter, hparen, List.getLast?_append]
    simp
  starts := rfl
  ends := by
    rw [List.getLast?_append]
    rfl
  waits op hop := absurd hop List.not_mem_nil
  apply below := rfl
  run pending below previous rest _ := by
    have hopen : Assembly.push ⟨pending, below⟩ previous (.paren .left)
        (resolved ++ .paren .right :: rest).head? = .ok ⟨.barrier :: pending, below⟩ := rfl
    have hclose : Assembly.push ⟨waiting.map .operator ++ .barrier :: pending, operands ++ below⟩
        resolved.getLast? (.paren .right) rest.head? = .ok ⟨pending, e :: below⟩ :=
      close_append (h.apply below)
    have hinner : Level.RestsOn .expression (.barrier :: pending) := trivial
    rw [List.append_assoc, List.singleton_append, List.cons_append, run_cons hopen,
      h.run _ below _ _ hinner, run_cons hclose, List.getLast?_append]
    rfl

/-- Every phrase is read, wherever it stands. -/
lemma Derives.exists_reads {level : Level} {tokens : List Token} {e : Expr}
    (h : Derives level tokens e) :
    ∃ resolved waiting operands, Reads level tokens e resolved waiting operands := by
  induction h with
  | add _ _ hl hr =>
    obtain ⟨resolved, waiting, operands, hl⟩ := hl
    obtain ⟨resolved', waiting', operands', hr⟩ := hr
    exact ⟨_, _, _, hl.binary hr .plus rfl (by decide) (by decide) (by decide) (by decide)⟩
  | subtract _ _ hl hr =>
    obtain ⟨resolved, waiting, operands, hl⟩ := hl
    obtain ⟨resolved', waiting', operands', hr⟩ := hr
    exact ⟨_, _, _, hl.binary hr .minus rfl (by decide) (by decide) (by decide) (by decide)⟩
  | term _ ih =>
    obtain ⟨resolved, waiting, operands, ih⟩ := ih
    exact ⟨_, _, _, ih.loosen (by decide)⟩
  | multiply _ _ hl hr =>
    obtain ⟨resolved, waiting, operands, hl⟩ := hl
    obtain ⟨resolved', waiting', operands', hr⟩ := hr
    exact ⟨_, _, _, hl.binary hr .times rfl (by decide) (by decide) (by decide) (by decide)⟩
  | divide _ _ hl hr =>
    obtain ⟨resolved, waiting, operands, hl⟩ := hl
    obtain ⟨resolved', waiting', operands', hr⟩ := hr
    exact ⟨_, _, _, hl.binary hr .divide rfl (by decide) (by decide) (by decide) (by decide)⟩
  | signed _ ih =>
    obtain ⟨resolved, waiting, operands, ih⟩ := ih
    exact ⟨_, _, _, ih.loosen (by decide)⟩
  | positive _ ih =>
    obtain ⟨resolved, waiting, operands, ih⟩ := ih
    exact ⟨_, _, _, ih.sign .plus rfl⟩
  | negative _ ih =>
    obtain ⟨resolved, waiting, operands, ih⟩ := ih
    exact ⟨_, _, _, ih.sign .minus rfl⟩
  | operand _ ih =>
    obtain ⟨resolved, waiting, operands, ih⟩ := ih
    exact ⟨_, _, _, ih.loosen (by decide)⟩
  | integer n => exact ⟨_, _, _, reads_operand rfl rfl (fun _ => rfl) fun _ _ _ => rfl⟩
  | decimal d => exact ⟨_, _, _, reads_operand rfl rfl (fun _ => rfl) fun _ _ _ => rfl⟩
  | name s => exact ⟨_, _, _, reads_operand rfl rfl (fun _ => rfl) fun _ _ _ => rfl⟩
  | enclosed _ ih =>
    obtain ⟨resolved, waiting, operands, ih⟩ := ih
    exact ⟨_, _, _, ih.enclosed⟩

/-- Tokens that are read as an expression are assembled to its tree. -/
lemma Reads.assemble_eq {tokens resolved : List Token} {e : Expr} {waiting : List Operator}
    {operands : List Expr} (h : Reads .expression tokens e resolved waiting operands) :
    Expr.assemble (Token.resolveSigns tokens) = .ok e := by
  have hresolve : Token.resolveSigns tokens = resolved := by
    have hresolve := h.resolve none [] rfl
    rwa [List.append_nil, Token.resolveAfter, List.append_nil] at hresolve
  have hrun := h.run [] [] none [] trivial
  rw [List.append_nil, List.append_nil, List.append_nil] at hrun
  have happly := h.apply []
  rw [List.append_nil] at happly
  rw [Expr.assemble, hresolve, hrun, Assembly.run]
  refine Outcome.bind_eq_ok_iff.2 ⟨_, rfl, ?_⟩
  rw [Assembly.result, finish_eq_applyAll, happly]
  rfl

/-- The tokens of an expression are assembled to the tree that it stands for. -/
theorem assemble_resolveSigns {tokens : List Token} {e : Expr}
    (h : Derives .expression tokens e) :
    Expr.assemble (Token.resolveSigns tokens) = .ok e := by
  obtain ⟨resolved, waiting, operands, h⟩ := h.exists_reads
  exact h.assemble_eq

/-- For instance a product of a sum with a negated name, whose sum has a sign itself. -/
theorem assemble_resolveSigns_signs :
    Expr.assemble (Token.resolveSigns [.paren .left, .operator .minus, .name "a", .operator .minus,
        .integer 2, .paren .right, .operator .times, .operator .minus, .name "b"]) =
      .ok (.product (.sum (.negation (.var "a")) (.negation (.integer 2)) [])
        (.negation (.var "b")) []) := by
  have ha : Derives .operand [.name "a"] (.var "a") := .name "a"
  have htwo : Derives .operand [.integer 2] (.integer 2) := .integer 2
  have hb : Derives .operand [.name "b"] (.var "b") := .name "b"
  have hsum := Derives.subtract (.term (.signed (.negative (.operand ha))))
    (.signed (.operand htwo))
  have hproduct := Derives.multiply (.signed (.operand (.enclosed hsum)))
    (.negative (.operand hb))
  exact assemble_resolveSigns (.term hproduct)

end Grammar

end TermAlgebra
