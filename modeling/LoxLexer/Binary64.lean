namespace LoxLexer

structure Binary64 where
  negative : Bool
  magnitude : Nat
  magnitude_lt : magnitude < 0x8000000000000000
  deriving DecidableEq

namespace Binary64

def signBit : Nat := 0x8000000000000000

def leadingBit : Nat := 0x10000000000000

def infinityBits : Nat := 0x7FF0000000000000

def isNaN (x : Binary64) : Bool := infinityBits < x.magnitude

def isInfinite (x : Binary64) : Bool := x.magnitude = infinityBits

def isFinite (x : Binary64) : Bool := x.magnitude < infinityBits

/-- What the bits of a finite magnitude stand for, in units of two to the -1074th. -/
def units (bits : Nat) : Nat :=
  if bits < leadingBit then bits
  else (leadingBit + bits % leadingBit) <<< (bits / leadingBit - 1)

def ofWord (word : UInt64) : Binary64 :=
  ⟨signBit ≤ word.toNat, word.toNat % signBit, Nat.mod_lt _ (by decide)⟩

def toWord (x : Binary64) : UInt64 :=
  .ofNat (x.magnitude + if x.negative then signBit else 0)

@[simp] theorem toWord_ofWord (word : UInt64) : (ofWord word).toWord = word := by
  have h := word.toNat_lt
  apply UInt64.toNat_inj.1
  by_cases hs : signBit ≤ word.toNat <;>
    simp only [ofWord, toWord, hs, UInt64.toNat_ofNat', decide_true, decide_false, if_true,
      Bool.false_eq_true, if_false] <;>
    simp only [signBit] at hs ⊢ <;> omega

@[simp] theorem ofWord_toWord (x : Binary64) : ofWord x.toWord = x := by
  obtain ⟨negative, magnitude, h⟩ := x
  cases negative <;> simp [ofWord, toWord, signBit] <;> omega

/-- Comparison of values: a NaN agrees with nothing, and the two zeros agree. -/
def agrees (x y : Binary64) : Bool :=
  !x.isNaN && !y.isNaN && (x = y || x.magnitude = 0 && y.magnitude = 0)

end Binary64

end LoxLexer
