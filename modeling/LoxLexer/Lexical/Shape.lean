import LoxLexer.Token.Kind

namespace LoxLexer

inductive Shape
  | plain (kind : Kind)
  | number
  | string
  | blank
  | lineComment
  | blockComment
  /-- A string or block comment that nothing closes takes all the rest of the source. -/
  | openString
  | openComment
  | stray (c : Char)
  deriving DecidableEq

def isBlank (c : Char) : Bool := c = ' ' || c = '\r' || c = '\t' || c = '\n'

def isWordStart (c : Char) : Bool := c.isAlpha || c = '_'

def isWordPart (c : Char) : Bool := isWordStart c || c.isDigit

def closing? (seen : Nat) : Text → Option Nat
  | [] => none
  | c :: rest =>
    if c = '*' ∧ rest.head? = some '/' then some (seen + 2) else closing? (seen + 1) rest

def fraction : Text → Nat
  | '.' :: d :: rest => if d.isDigit then (rest.takeWhile Char.isDigit).length + 2 else 0
  | _ => 0

namespace Shape

def ofSlash : Text → Shape × Nat
  | '/' :: rest => (.lineComment, (rest.takeWhile (· ≠ '\n')).length + 1)
  | '*' :: rest =>
    match closing? 1 rest with
    | some more => (.blockComment, more)
    | none => (.openComment, rest.length + 1)
  | _ => (.plain .slash, 0)

def ofQuote (rest : Text) : Shape × Nat :=
  let inside := (rest.takeWhile (· ≠ '"')).length
  if inside < rest.length then (.string, inside + 1) else (.openString, rest.length)

def ofDigit (rest : Text) : Shape × Nat :=
  let whole := (rest.takeWhile Char.isDigit).length
  (.number, whole + fraction (rest.drop whole))

def ofWordStart (c : Char) (rest : Text) : Shape × Nat :=
  let more := rest.takeWhile isWordPart
  (.plain (.ofWord (c :: more)), more.length)

def ofSymbol (kind : Kind) (rest : Text) : Shape × Nat :=
  match kind.withEqual?, rest with
  | some longer, '=' :: _ => (.plain longer, 1)
  | _, _ => (.plain kind, 0)

/-- The shape that `c` begins, and how many of the characters behind it belong to the stretch. -/
def munch (c : Char) (rest : Text) : Shape × Nat :=
  if c = '/' then ofSlash rest
  else if c = '"' then ofQuote rest
  else if isBlank c then (.blank, 0)
  else if c.isDigit then ofDigit rest
  else if isWordStart c then ofWordStart c rest
  else match Kind.ofChar? c with
    | some kind => ofSymbol kind rest
    | none => (.stray c, 0)

end Shape

theorem length_takeWhile_le (p : Char → Bool) (text : Text) :
    (text.takeWhile p).length ≤ text.length :=
  (List.takeWhile_sublist p).length_le

theorem closing?_le {seen n : Nat} {text : Text} (h : closing? seen text = some n) :
    seen + 2 ≤ n ∧ n ≤ seen + text.length := by
  induction text generalizing seen with
  | nil => simp [closing?] at h
  | cons c rest ih =>
    rw [closing?] at h
    split at h
    · next hc =>
      cases rest with
      | nil => simp at hc
      | cons d rest => simp only [Option.some.injEq] at h; simp only [List.length_cons]; omega
    · have := ih h
      simp only [List.length_cons]
      omega

theorem fraction_le (text : Text) : fraction text ≤ text.length := by
  rw [fraction.eq_def]
  split
  · next rest =>
    have := length_takeWhile_le Char.isDigit rest
    split
    · simp only [List.length_cons]; omega
    · exact Nat.zero_le _
  · exact Nat.zero_le _

theorem Shape.munch_le (c : Char) (rest : Text) : (munch c rest).2 ≤ rest.length := by
  unfold munch
  split
  · rw [ofSlash.eq_def]
    split
    · next rest => have := length_takeWhile_le (· ≠ '\n') rest; simp only [List.length_cons]; omega
    · split
      · next h => have := closing?_le h; simp only [List.length_cons]; omega
      · simp
    · exact Nat.zero_le _
  split
  · simp only [ofQuote]
    split
    · assumption
    · exact Nat.le_refl _
  split
  · exact Nat.zero_le _
  split
  · have := length_takeWhile_le Char.isDigit rest
    have := fraction_le (rest.drop (rest.takeWhile Char.isDigit).length)
    simp only [List.length_drop] at this
    simp only [ofDigit]
    omega
  split
  · exact length_takeWhile_le ..
  split
  · rw [ofSymbol.eq_def]
    split
    · simp only [List.length_cons]; omega
    · exact Nat.zero_le _
  · exact Nat.zero_le _

end LoxLexer
