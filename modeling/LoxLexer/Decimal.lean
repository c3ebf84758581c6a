import LoxLexer.Text

namespace LoxLexer

structure Decimal where
  coefficient : Nat
  places : Nat
  deriving DecidableEq

namespace Decimal

def ofNumeral (numeral : Text) : Decimal :=
  let whole := numeral.takeWhile Char.isDigit
  let fraction := (numeral.dropWhile Char.isDigit).tail
  ⟨Nat.ofDigitChars 10 (whole ++ fraction) 0, fraction.length⟩

def digits (d : Decimal) : Text :=
  (Nat.toDigits 10 d.coefficient).leftpad (d.places + 1) '0'

def toNumeral (d : Decimal) : Text :=
  let split := d.digits.length - d.places
  if d.places = 0 then d.digits else d.digits.take split ++ '.' :: d.digits.drop split

theorem places_lt_length_digits (d : Decimal) : d.places < d.digits.length := by
  rw [digits, List.length_leftpad]
  omega

@[simp] theorem ofDigitChars_leftpad (n : Nat) (text : Text) :
    Nat.ofDigitChars 10 (text.leftpad n '0') 0 = Nat.ofDigitChars 10 text 0 := by
  rw [List.leftpad]
  induction n - text.length with
  | zero => rfl
  | succ k ih => simpa [List.replicate_succ, Nat.ofDigitChars] using ih

theorem isDigit_of_mem_digits {d : Decimal} {c : Char} (h : c ∈ d.digits) : c.isDigit := by
  rw [digits, List.leftpad, List.mem_append] at h
  rcases h with h | h
  · rw [List.eq_of_mem_replicate h]; decide
  · exact Nat.isDigit_of_mem_toDigits (by decide) (by decide) h

@[simp] theorem ofDigitChars_digits (d : Decimal) :
    Nat.ofDigitChars 10 d.digits 0 = d.coefficient := by
  rw [digits, ofDigitChars_leftpad]
  exact Nat.ofDigitChars_toDigits (by decide) (by decide)

@[simp] theorem ofNumeral_toNumeral (d : Decimal) : ofNumeral d.toNumeral = d := by
  have isDigit := @isDigit_of_mem_digits d
  rw [toNumeral]
  split
  next h =>
    have front := @List.takeWhile_append_of_pos _ Char.isDigit d.digits [] fun _ => isDigit
    have back := @List.dropWhile_append_of_pos _ Char.isDigit d.digits [] fun _ => isDigit
    simp only [List.append_nil, List.takeWhile_nil, List.dropWhile_nil] at front back
    simp only [ofNumeral, front, back, List.tail_nil, List.append_nil, ofDigitChars_digits]
    rw [List.length_nil, ← h]
  next h =>
    have point : Char.isDigit '.' = false := rfl
    have front : ∀ c ∈ d.digits.take (d.digits.length - d.places), c.isDigit :=
      fun c hc => isDigit (List.mem_of_mem_take hc)
    have := places_lt_length_digits d
    simp only [ofNumeral, List.takeWhile_append_of_pos front, List.dropWhile_append_of_pos front,
      List.takeWhile_cons, List.dropWhile_cons, point, Bool.false_eq_true, if_false,
      List.append_nil,
      List.tail_cons, List.take_append_drop, ofDigitChars_digits, List.length_drop]
    congr 1
    omega

end Decimal

end LoxLexer
