import LoxLexer.Token.Kind
import LoxLexer.Binary64.Shortest

namespace LoxLexer

inductive Literal
  | number (value : Binary64)
  | string (value : Text)
  deriving DecidableEq

namespace Literal

def render : Literal → Text
  | .number value => value.toText
  | .string value => value

def agrees : Literal → Literal → Bool
  | .number x, .number y => x.agrees y
  | .string v, .string w => v = w
  | _, _ => false

end Literal

structure Token where
  kind : Kind
  lexeme : Text
  literal : Option Literal
  line : Nat
  deriving DecidableEq

namespace Token

def plain (kind : Kind) (lexeme : Text) (line : Nat) : Token := ⟨kind, lexeme, none, line⟩

def number (lexeme : Text) (value : Binary64) (line : Nat) : Token :=
  ⟨.number, lexeme, some (.number value), line⟩

def string (lexeme value : Text) (line : Nat) : Token :=
  ⟨.string, lexeme, some (.string value), line⟩

def endOfInput (line : Nat) : Token := plain .eof [] line

def render (t : Token) : Text :=
  t.kind.name.toList ++ ' ' :: t.lexeme ++ ' ' :: (t.literal.map Literal.render).getD []

def listing (tokens : List Token) : Text := tokens.flatMap fun t => t.render ++ ['\n']

@[simp] theorem listing_append (a b : List Token) : listing (a ++ b) = listing a ++ listing b :=
  List.flatMap_append

/-- Equality of all four parts, literal numbers by value: a token that holds a NaN does not agree
with itself. -/
def agrees (t u : Token) : Bool :=
  t.kind = u.kind && t.lexeme = u.lexeme && t.line = u.line &&
    match t.literal, u.literal with
    | none, none => true
    | some x, some y => x.agrees y
    | _, _ => false

def listsAgree : List Token → List Token → Bool
  | [], [] => true
  | t :: ts, u :: us => t.agrees u && listsAgree ts us
  | _, _ => false

end Token

end LoxLexer
