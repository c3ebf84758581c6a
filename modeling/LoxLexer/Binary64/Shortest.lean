import LoxLexer.Binary64.Rounding

namespace LoxLexer.Binary64

def decimalUnits (bits : Nat) : Nat := units bits * Nat.pow 5 1074

/-- The multiple `m * 10 ^ grid` of `10 ^ -1074`, as many places as it needs. -/
def gridDecimal (grid m : Nat) : Decimal :=
  if grid < 1074 then ⟨m, 1074 - grid⟩ else ⟨m * Nat.pow 10 (grid - 1074), 0⟩

def readsBack (bits : Nat) (d : Decimal) : Bool := (ofDecimal d).magnitude = bits

/-- Of the two neighbours of `value` on the grid those that read back; of both the nearer, the upper
in a tie. -/
def neighbour? (bits value grid : Nat) : Option Decimal :=
  let spacing := Nat.pow 10 grid
  let lower := gridDecimal grid (value / spacing)
  let upper := gridDecimal grid (value / spacing + 1)
  match readsBack bits lower, readsBack bits upper with
  | false, false => none
  | true, false => some lower
  | false, true => some upper
  | true, true => some (if 2 * (value % spacing) < spacing then lower else upper)

def shortestFrom (bits value : Nat) : Nat → Decimal
  | 0 => gridDecimal 0 value
  | grid + 1 => (neighbour? bits value (grid + 1)).getD (shortestFrom bits value grid)

def powerAbove (n : Nat) : Nat := (n.log2 + 1) * 30103 / 100000 + 1

def shortest (bits : Nat) : Decimal :=
  shortestFrom bits (decimalUnits bits) (powerAbove (decimalUnits bits))

def toText (x : Binary64) : Text :=
  if x.isNaN then "NaN".toList
  else
    (if x.negative then ['-'] else []) ++
      (if x.isInfinite then "inf".toList
       else if x.magnitude = 0 then ['0']
       else (shortest x.magnitude).toNumeral)

end LoxLexer.Binary64
