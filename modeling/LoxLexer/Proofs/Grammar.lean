import LoxLexer.Lexical.Cursor

/-!
The lexical patterns of Lox, said without the functions that cut a source into pieces, and what it
means that a stretch of source is the longest match.
-/

namespace LoxLexer

inductive Sense
  | token (kind : Kind) (literal : Option Literal)
  | trivia
  | fault (cause : LexicalFault)
  deriving DecidableEq

def Sense.item? (text : Text) (line : Nat) : Sense → Option Item
  | .token kind literal => some (.token ⟨kind, text, literal, line⟩)
  | .trivia => none
  | .fault cause => some (.fault (.lexical line cause))

def Letter (c : Char) : Prop := 'A' ≤ c ∧ c ≤ 'Z' ∨ 'a' ≤ c ∧ c ≤ 'z' ∨ c = '_'

def Digit (c : Char) : Prop := '0' ≤ c ∧ c ≤ '9'

def IsWord : Text → Prop
  | [] => False
  | c :: more => Letter c ∧ ∀ d ∈ more, Letter d ∨ Digit d

def IsDigits (text : Text) : Prop := text ≠ [] ∧ ∀ d ∈ text, Digit d

inductive IsNumeral : Text → Prop
  | whole : IsDigits text → IsNumeral text
  | fractional : IsDigits whole → IsDigits places → IsNumeral (whole ++ '.' :: places)

/-- With a `*/` put behind it, `body` has that one `*/` and no other. -/
def ClosesOnce (body : Text) : Prop :=
  ∀ before after, body ++ ['*', '/'] = before ++ '*' :: '/' :: after → after = []

def NeverCloses (body : Text) : Prop := ∀ before after, body ≠ before ++ '*' :: '/' :: after

inductive WellFormed : Kind → Text → Option Literal → Prop
  | spelled : kind.spelling? = some text → WellFormed kind text none
  | identifier : IsWord text → (∀ kind : Kind, kind.spelling? ≠ some text) →
      WellFormed .identifier text none
  | number : IsNumeral text →
      WellFormed .number text (some (.number (.ofDecimal (.ofNumeral text))))
  | string : '"' ∉ value → WellFormed .string ('"' :: (value ++ ['"'])) (some (.string value))

inductive Trivia : Text → Prop
  | blank : c = ' ' ∨ c = '\r' ∨ c = '\t' ∨ c = '\n' → Trivia [c]
  | lineComment : '\n' ∉ body → Trivia ('/' :: '/' :: body)
  | blockComment : ClosesOnce body → Trivia ('/' :: '*' :: (body ++ ['*', '/']))

inductive Unfinished : LexicalFault → Text → Prop
  | string : '"' ∉ value → Unfinished .unterminatedString ('"' :: value)
  | comment : NeverCloses body → Unfinished .unterminatedComment ('/' :: '*' :: body)

/-- The patterns, with what stands behind the stretch in the source. None of them asks for a run to
be as long as it can be: that is left to the longest match. -/
inductive Pattern : Sense → Text → Text → Prop
  | token : WellFormed kind text literal → Pattern (.token kind literal) text after
  | trivia : Trivia text → Pattern .trivia text after
  | unfinished : Unfinished cause text → Pattern (.fault cause) text []

def BeginsNothing (c : Char) : Prop := ∀ sense more after, ¬ Pattern sense (c :: more) after

inductive Matches : Sense → Text → Text → Prop
  | pattern : Pattern sense text after → Matches sense text after
  | stray : BeginsNothing c → Matches (.fault (.unexpectedCharacter c)) [c] after

/-- Of all that matches at the front of `text ++ after`, `text` is the longest, and it matches in
no other sense. -/
structure LongestMatch (sense : Sense) (text after : Text) : Prop where
  fits : Matches sense text after
  outdone : ∀ other short rest, Matches other short rest → short ++ rest = text ++ after →
    short.length < text.length ∨ short = text ∧ other = sense

end LoxLexer
