import LoxLexer.Proofs.Magnitude

/-!
Rounding to the nearest datum, ties to even. The magnitudes go on beyond the finite ones as a rising
sequence, in which every nonnegative number has one nearest member: what is rounded lies between two
neighbours, and the half way between them decides. Only then is what passes the largest finite datum
cut to infinity.
-/

namespace LoxLexer.Binary64

/-- The nearest datum, of two the one whose significand is even. From half a step above the largest
finite datum on it is infinity. -/
structure RoundsTo (v : ℚ) (x : Binary64) : Prop where
  negative : x.negative = false
  isNaN : x.isNaN = false
  isInfinite : x.isInfinite ↔ 2 ^ 1024 - 2 ^ 970 ≤ v
  nearest : x.isFinite → ∀ y : Binary64, y.isFinite → |v - x.value| ≤ |v - y.value|
  tiesToEven : x.isFinite → ∀ y : Binary64, y.isFinite → |v - y.value| = |v - x.value| →
    y.value ≠ x.value → Even x.significand

structure Approximates (v : ℚ) (n : Nat) : Prop where
  nearest : ∀ k, |v - scale n| ≤ |v - scale k|
  even : ∀ k, |v - scale k| = |v - scale n| → k ≠ n → Even n

variable {v w : ℚ} {k m n : Nat} {x : Binary64}

theorem Approximates.of_low (low : scale n ≤ v) (near : 2 * v ≤ scale n + scale (n + 1))
    (even : 2 * v = scale n + scale (n + 1) → Even n) : Approximates v n := by
  have own : |v - scale n| = v - scale n := abs_of_nonneg (by linarith)
  have step := scale_strictMono (Nat.lt_succ_self n)
  constructor
  · intro k
    rw [own]
    rcases Nat.lt_or_ge n k with above | below
    · have := scale_strictMono.monotone above
      linarith [neg_abs_le (v - scale k)]
    · have := scale_strictMono.monotone below
      linarith [le_abs_self (v - scale k)]
  · intro k tie other
    rw [own] at tie
    rcases Nat.lt_or_gt_of_ne other with below | above
    · have := scale_strictMono below
      linarith [le_abs_self (v - scale k)]
    · have := scale_strictMono.monotone above
      exact even (by linarith [neg_abs_le (v - scale k)])

theorem Approximates.of_high (high : v ≤ scale (n + 1)) (near : scale n + scale (n + 1) ≤ 2 * v)
    (even : 2 * v = scale n + scale (n + 1) → Even (n + 1)) : Approximates v (n + 1) := by
  have own : |v - scale (n + 1)| = scale (n + 1) - v := by
    rw [abs_sub_comm]
    exact abs_of_nonneg (by linarith)
  have step := scale_strictMono (Nat.lt_succ_self n)
  constructor
  · intro k
    rw [own]
    rcases Nat.lt_or_ge n k with above | below
    · have := scale_strictMono.monotone above
      linarith [neg_abs_le (v - scale k)]
    · have := scale_strictMono.monotone below
      linarith [le_abs_self (v - scale k)]
  · intro k tie other
    rw [own] at tie
    rcases Nat.lt_or_ge n k with above | below
    · have := scale_strictMono (Nat.lt_of_le_of_ne above other.symm)
      linarith [neg_abs_le (v - scale k)]
    · have := scale_strictMono.monotone below
      exact even (by linarith [le_abs_self (v - scale k)])

theorem add_le_of_abs_le {a b : ℚ} (less : a < b) (near : |v - b| ≤ |v - a|) :
    a + b ≤ 2 * v := by
  rcases abs_cases (v - b) with ⟨far, _⟩ | ⟨far, _⟩ <;>
    rcases abs_cases (v - a) with ⟨own, _⟩ | ⟨own, _⟩ <;> linarith

theorem le_add_of_abs_le {a b : ℚ} (less : a < b) (near : |v - a| ≤ |v - b|) :
    2 * v ≤ a + b := by
  rcases abs_cases (v - b) with ⟨far, _⟩ | ⟨far, _⟩ <;>
    rcases abs_cases (v - a) with ⟨own, _⟩ | ⟨own, _⟩ <;> linarith

namespace Approximates

theorem le (hv : Approximates v n) (hw : Approximates w m) (le : v ≤ w) : n ≤ m := by
  by_contra less
  have less : m < n := Nat.lt_of_not_ge less
  have low := add_le_of_abs_le (scale_strictMono less) (hv.nearest m)
  have high := le_add_of_abs_le (scale_strictMono less) (hw.nearest n)
  obtain rfl : v = w := by linarith
  -- The number lies half way, so both are even and a nearer one is between them.
  have tie : |v - scale n| = |v - scale m| := le_antisymm (hv.nearest m) (hw.nearest n)
  obtain ⟨half, rfl⟩ := hv.even m tie.symm (Nat.ne_of_lt less)
  obtain ⟨half', rfl⟩ := hw.even _ tie (Nat.ne_of_gt less)
  have between : half' + half' + 1 < half + half := by omega
  have nearer := add_le_of_abs_le (scale_strictMono between) (hv.nearest _)
  linarith [scale_strictMono (Nat.lt_succ_self (half' + half'))]

theorem unique (h : Approximates v n) (h' : Approximates v m) : n = m :=
  Nat.le_antisymm (h.le h' le_rfl) (h'.le h le_rfl)

end Approximates

theorem approximates_scale (n : Nat) : Approximates (scale n) n := by
  constructor
  · intro k
    rw [sub_self, abs_zero]
    exact abs_nonneg _
  · intro k tie other
    rw [sub_self, abs_zero, abs_eq_zero, sub_eq_zero] at tie
    exact absurd (scale_strictMono.injective tie).symm other

theorem roundHalfEven_cases (num den : Nat) :
    roundHalfEven num den = num / den ∧
        (2 * num < (2 * (num / den) + 1) * den ∨
          2 * num = (2 * (num / den) + 1) * den ∧ Even (num / den)) ∨
      roundHalfEven num den = num / den + 1 ∧
        ((2 * (num / den) + 1) * den < 2 * num ∨
          2 * num = (2 * (num / den) + 1) * den ∧ Even (num / den + 1)) := by
  have split := Nat.div_add_mod' num den
  have half : (2 * (num / den) + 1) * den = 2 * (num / den * den) + den := by ring
  rw [roundHalfEven]
  cases order : compare (2 * (num % den)) den with
  | lt =>
    have := Nat.compare_eq_lt.1 order
    exact .inl ⟨rfl, .inl (by omega)⟩
  | gt =>
    have := Nat.compare_eq_gt.1 order
    exact .inr ⟨rfl, .inl (by omega)⟩
  | eq =>
    have := Nat.compare_eq_eq.1 order
    dsimp only
    rcases Nat.even_or_odd (num / den) with even | odd
    · rw [Nat.even_iff.1 even]
      exact .inl ⟨rfl, .inr ⟨by omega, even⟩⟩
    · rw [Nat.odd_iff.1 odd]
      exact .inr ⟨rfl, .inr ⟨by omega, odd.add_one⟩⟩

theorem doublings_bounds (units : Nat) :
    (leadingBit ≤ units / 2 ^ doublings units ∨ doublings units = 0) ∧
      units / 2 ^ doublings units < 2 * leadingBit := by
  have high : units < 2 * leadingBit * 2 ^ doublings units := by
    calc units < 2 ^ (units.log2 + 1) := Nat.lt_log2_self
      _ ≤ 2 ^ (53 + doublings units) := by
        apply Nat.pow_le_pow_right (by decide)
        rw [doublings]
        omega
      _ = 2 * leadingBit * 2 ^ doublings units := by rw [leadingBit_eq, Nat.pow_add]; ring
  refine ⟨?_, Nat.div_lt_of_lt_mul (by rwa [Nat.mul_comm])⟩
  rcases Nat.eq_zero_or_pos (doublings units) with none | some
  · exact .inr none
  · have size : units.log2 = 52 + doublings units := by rw [doublings] at some ⊢; omega
    have nonzero : units ≠ 0 := by
      rintro rfl
      exact absurd some (by decide)
    left
    rw [Nat.le_div_iff_mul_le (Nat.two_pow_pos _), leadingBit_eq, ← Nat.pow_add, ← size]
    exact Nat.log2_self_le nonzero

theorem cast_shiftLeft (n k : Nat) : ((n <<< k : Nat) : ℚ) = n * 2 ^ k := by
  rw [Nat.shiftLeft_eq, Nat.cast_mul, Nat.cast_pow, Nat.cast_ofNat]

theorem scale_add_le_iff {num den : Nat} (pos : 0 < den) (m n : Nat) :
    scale m + scale n ≤ 2 * (num / den) ↔ (units m + units n) * den ≤ 2 * num <<< 1074 := by
  have pos : (0 : ℚ) < den := Nat.cast_pos.2 pos
  rw [scale, scale, ← add_div, div_le_iff₀ (by positivity), mul_div_assoc', div_mul_eq_mul_div,
    le_div_iff₀ pos, mul_assoc 2, ← cast_shiftLeft]
  generalize num <<< 1074 = scaled
  norm_cast

theorem le_scale_add_iff {num den : Nat} (pos : 0 < den) (m n : Nat) :
    2 * (num / den) ≤ scale m + scale n ↔ 2 * num <<< 1074 ≤ (units m + units n) * den := by
  have pos : (0 : ℚ) < den := Nat.cast_pos.2 pos
  rw [scale, scale, ← add_div, le_div_iff₀ (by positivity), mul_div_assoc', div_mul_eq_mul_div,
    div_le_iff₀ pos, mul_assoc 2, ← cast_shiftLeft]
  generalize num <<< 1074 = scaled
  norm_cast

/-- Where two neighbours stand at a quotient and its successor, rounding the quotient rounds to the
nearer of them. -/
theorem approximates_roundHalfEven {num den scaled step base : Nat} (pos : 0 < den)
    (scaled_eq : num <<< 1074 = scaled) (step_pos : 0 < step) (even : Even base)
    (below : units (base + scaled / step) * den = scaled / step * step)
    (above : units (base + scaled / step + 1) * den = scaled / step * step + step) :
    Approximates (num / den) (base + roundHalfEven scaled step) := by
  have low_le (m n : Nat) := @scale_add_le_iff num den pos m n
  have le_high (m n : Nat) := @le_scale_add_iff num den pos m n
  simp only [scaled_eq, Nat.add_mul] at low_le le_high
  have split := Nat.div_add_mod' scaled step
  have inside := Nat.mod_lt scaled step_pos
  have half : (2 * (scaled / step) + 1) * step = 2 * (scaled / step * step) + step := by ring
  have cases := roundHalfEven_cases scaled step
  rw [half] at cases
  generalize scaled / step = m at *
  rcases cases with ⟨same, near⟩ | ⟨same, near⟩
  · rw [same]
    apply Approximates.of_low
    · have := (low_le (base + m) (base + m)).2 (by omega)
      linarith
    · exact (le_high _ _).2 (by omega)
    · intro tie
      have := (low_le _ _).1 tie.ge
      exact even.add (near.resolve_left (by omega)).2
  · rw [same, ← Nat.add_assoc]
    apply Approximates.of_high
    · have := (le_high (base + m + 1) (base + m + 1)).2 (by omega)
      linarith
    · exact (low_le _ _).2 (by omega)
    · intro tie
      have := (le_high _ _).1 tie.le
      exact Nat.add_assoc .. ▸ even.add (near.resolve_left (by omega)).2

theorem approximates_nearestBits (num : Nat) {den : Nat} (pos : 0 < den) :
    ∃ n, Approximates (num / den) n ∧ nearestBits num den = min n infinityBits := by
  refine ⟨_, ?_, rfl⟩
  generalize scaled_eq : num <<< 1074 = scaled
  obtain ⟨low, high⟩ := doublings_bounds (scaled / den)
  generalize doublings (scaled / den) = binade at *
  rw [Nat.div_div_eq_div_mul] at low high
  rw [Nat.shiftLeft_eq]
  refine approximates_roundHalfEven pos scaled_eq (Nat.mul_pos pos (Nat.two_pow_pos _))
    ((by decide : Even leadingBit).mul_left _) ?_ ?_
  · rw [units_add low (Nat.le_of_lt high)]
    ring
  · rw [Nat.add_assoc, units_add (m := _ + 1) (by omega) high]
    ring

theorem scale_top (low : leadingBit ≤ m) (high : m ≤ 2 * leadingBit) :
    scale (2045 * leadingBit + m) = m * (2 * 2 ^ 970) := by
  rw [scale_units (.inl low) high, mul_div_assoc, ← pow_succ']
  congr 1
  rw [div_eq_iff (by positivity), ← pow_add]

theorem scale_top_add :
    scale (infinityBits - 1) + scale infinityBits = 2 * (2 ^ 1024 - 2 ^ 970) := by
  have below : infinityBits - 1 = 2045 * leadingBit + (2 * leadingBit - 1) := by decide
  have above : infinityBits = 2045 * leadingBit + 2 * leadingBit := by decide
  have high : (2 : ℚ) ^ 1024 = 2 ^ 54 * 2 ^ 970 := by rw [← pow_add]
  rw [below, above, scale_top (by decide) (by decide), scale_top (by decide) (by decide), high]
  generalize (2 : ℚ) ^ 970 = step
  norm_num [leadingBit]
  ring

theorem infinityBits_le_iff (h : Approximates v n) :
    infinityBits ≤ n ↔ 2 ^ 1024 - 2 ^ 970 ≤ v := by
  have half := scale_top_add
  generalize (2 ^ 1024 - 2 ^ 970 : ℚ) = threshold at *
  have step : scale (infinityBits - 1) < scale infinityBits := scale_strictMono (by decide)
  constructor
  · intro large
    have less : infinityBits - 1 < n := Nat.lt_of_lt_of_le (by decide) large
    have low := add_le_of_abs_le (scale_strictMono less) (h.nearest _)
    linarith [scale_strictMono.monotone large]
  · intro large
    have next : infinityBits - 1 + 1 = infinityBits := by decide
    have up : Approximates threshold (infinityBits - 1 + 1) := by
      refine .of_high ?_ ?_ fun _ => by decide
      · rw [next]
        linarith
      · rw [next, half]
    exact up.le h large

theorem abs_sub_scale_le (nonneg : 0 ≤ v) (y : Binary64) :
    |v - scale y.magnitude| ≤ |v - y.value| := by
  rw [value_eq]
  cases y.negative with
  | false => simp
  | true =>
    have scale_nonneg := scale_nonneg y.magnitude
    have sum : v - (if true then -1 else 1) * scale y.magnitude = v + scale y.magnitude := by simp
    rw [sum, abs_of_nonneg (add_nonneg nonneg scale_nonneg), abs_le]
    constructor <;> linarith

theorem Approximates.value_eq_of_tie (h : Approximates v n) (nonneg : 0 ≤ v) {y : Binary64}
    (same : y.magnitude = n) (tie : |v - y.value| = |v - scale n|) : y.value = scale n := by
  rw [value_eq, same] at tie ⊢
  cases hy : y.negative with
  | false => simp
  | true =>
    have zero := h.nearest 0
    have scale_nonneg := scale_nonneg n
    simp only [hy, if_true, neg_one_mul, sub_neg_eq_add, scale_zero, sub_zero] at tie zero ⊢
    rw [abs_of_nonneg (by linarith)] at tie
    rw [abs_of_nonneg nonneg] at zero
    rcases abs_cases (v - scale n) with ⟨own, -⟩ | ⟨own, -⟩ <;> linarith

theorem Approximates.roundsTo (h : Approximates v n) (nonneg : 0 ≤ v)
    (negative : x.negative = false) (magnitude : x.magnitude = min n infinityBits) :
    RoundsTo v x := by
  have own : x.isFinite → x.magnitude = n := by
    intro finite
    have : x.magnitude < infinityBits := of_decide_eq_true finite
    omega
  have value (finite : x.isFinite) : x.value = scale n := by
    rw [value_eq, negative, own finite]
    simp
  constructor
  case negative => exact negative
  case isNaN => exact decide_eq_false (by omega)
  case isInfinite =>
    rw [← infinityBits_le_iff h, isInfinite, decide_eq_true_iff]
    omega
  case nearest =>
    intro finite y _
    rw [value finite]
    exact (h.nearest y.magnitude).trans (abs_sub_scale_le nonneg y)
  case tiesToEven =>
    intro finite y _ tie other
    rw [value finite] at tie other
    rw [even_significand_iff, own finite]
    have same : |v - scale y.magnitude| = |v - scale n| :=
      le_antisymm (tie ▸ abs_sub_scale_le nonneg y) (h.nearest y.magnitude)
    exact h.even y.magnitude same fun equal => other (h.value_eq_of_tie nonneg equal tie)

end LoxLexer.Binary64
