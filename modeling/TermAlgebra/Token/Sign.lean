import TermAlgebra.Token.Lexeme

/-!
# Signs

A plus or minus is a sign where no operand ends just before it. Main definitions:
`Token.resolveSigns` and `Token.ofText`, the tokens of a text with the signs told apart.
-/

namespace TermAlgebra.Token

/-- The token as it is meant after the given one: an operator that follows no operand is a sign. -/
def resolved (previous : Option Token) : Token → Token
  | operator op => if previous.any endsOperand then operator op else operator op.asUnary
  | token => token

/-- The tokens as they are meant after the given one. -/
def resolveAfter (previous : Option Token) : List Token → List Token
  | [] => []
  | token :: rest =>
    let token := token.resolved previous
    token :: resolveAfter (some token) rest

/-- The tokens with the signs told apart from the binary operators. -/
def resolveSigns (tokens : List Token) : List Token :=
  resolveAfter none tokens

/-- The same for places that may hold no token. No operand ends at an empty place. -/
def resolvePlaces (previous : Option Token) : List (Option Token) → List (Option Token)
  | [] => []
  | place :: rest =>
    let place := place.map (resolved previous)
    place :: resolvePlaces place rest

/-- Where every place holds a token the two agree. -/
theorem resolvePlaces_map_some (previous : Option Token) (tokens : List Token) :
    resolvePlaces previous (tokens.map some) = (resolveAfter previous tokens).map some := by
  induction tokens generalizing previous with
  | nil => rfl
  | cons token rest ih => simp [resolvePlaces, resolveAfter, ih]

/-- The tokens of a text. -/
def ofText (s : String) : Except Fault (List Token) :=
  (lex s.toList).map resolveSigns

end TermAlgebra.Token
