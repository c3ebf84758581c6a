import LoxLexer.Binary64
import LoxLexer.Decimal

namespace LoxLexer

def roundHalfEven (num den : Nat) : Nat :=
  let quotient := num / den
  match compare (2 * (num % den)) den with
  | .lt => quotient
  | .gt => quotient + 1
  | .eq => quotient + quotient % 2

namespace Binary64

def doublings (units : Nat) : Nat := units.log2 - 52

def nearestBits (num den : Nat) : Nat :=
  let scaled := num <<< 1074
  let binade := doublings (scaled / den)
  min (binade * leadingBit + roundHalfEven scaled (den <<< binade)) infinityBits

theorem nearestBits_le (num den : Nat) : nearestBits num den ≤ infinityBits :=
  Nat.min_le_right ..

def nearest (num den : Nat) : Binary64 :=
  ⟨false, nearestBits num den, Nat.lt_of_le_of_lt (nearestBits_le num den) (by decide)⟩

def ofDecimal (d : Decimal) : Binary64 := nearest d.coefficient (Nat.pow 10 d.places)

@[simp] theorem negative_ofDecimal (d : Decimal) : (ofDecimal d).negative = false := rfl

@[simp] theorem isNaN_ofDecimal (d : Decimal) : (ofDecimal d).isNaN = false :=
  decide_eq_false (Nat.not_lt.2 (nearestBits_le ..))

end Binary64

end LoxLexer
