import LoxLexer.Proofs.Lines
import LoxLexer.Proofs.Numerals

/-!
The text of a number scans back to that number. It is positional, and of all decimals that round to
the datum it has the fewest digits: a decimal with fewer would have to lie on a coarser grid, and on
none of these does a neighbour of the datum read back.
-/

namespace LoxLexer

def Decimal.HasDigits (d : Decimal) (n : Nat) : Prop :=
  ∃ m : Nat, ∃ e : ℤ, m < 10 ^ n ∧ d.value = m * 10 ^ e

namespace Binary64

/-- No decimal that rounds to the datum has fewer digits, and none of those behind the point is
spent on a zero at the end. -/
structure Shortest (x : Binary64) (d : Decimal) : Prop where
  rounds : ofDecimal d = x
  fewest : ∀ other, ofDecimal other = x → ∀ n, other.HasDigits n → d.HasDigits n
  last : d.places ≠ 0 → d.coefficient % 10 ≠ 0

def spacing (grid : Nat) : ℚ := 10 ^ grid / 10 ^ 1074

/-- What the search settles on: the coarsest grid with a neighbour of `value` that reads back, and
that neighbour. -/
structure Settles (bits value top grid m : Nat) : Prop where
  le_top : grid ≤ top
  beside : m = value / 10 ^ grid ∨ m = value / 10 ^ grid + 1
  reads : readsBack bits (gridDecimal grid m)
  coarser : ∀ g, grid < g → g ≤ top → neighbour? bits value g = none

variable {bits value top grid g m k : Nat} {d e f other : Decimal} {x : Binary64}

theorem spacing_pos (grid : Nat) : 0 < spacing grid := by
  rw [spacing]
  positivity

theorem spacing_add (grid k : Nat) : spacing (grid + k) = 10 ^ k * spacing grid := by
  rw [spacing, spacing, pow_add, mul_comm (10 ^ grid), mul_div_assoc]

theorem value_gridDecimal (grid m : Nat) : (gridDecimal grid m).value = m * spacing grid := by
  rw [gridDecimal, spacing]
  generalize (1074 : ℕ) = places
  have nonzero : (10 : ℚ) ≠ 0 := by norm_num
  split
  next fine =>
    rw [Decimal.value, pow_sub₀ _ nonzero (Nat.le_of_lt fine)]
    field_simp
  next coarse =>
    rw [Decimal.value, div_eq_mul_inv (10 ^ grid), ← pow_sub₀ _ nonzero (Nat.le_of_not_lt coarse),
      Nat.pow_eq, pow_zero, div_one]
    push_cast
    rfl

theorem gridDecimal_mul_pow (grid m n : Nat) :
    (gridDecimal grid (m * 10 ^ n)).value = (gridDecimal (grid + n) m).value := by
  rw [value_gridDecimal, value_gridDecimal, spacing_add]
  push_cast
  ring

theorem ten_pow (n : Nat) : (10 : ℚ) ^ n = 5 ^ n * 2 ^ n := by
  rw [← mul_pow]
  norm_num

theorem value_gridDecimal_zero (bits : Nat) :
    (gridDecimal 0 (decimalUnits bits)).value = scale bits := by
  rw [value_gridDecimal, decimalUnits, scale, spacing]
  generalize (1074 : ℕ) = places
  rw [Nat.pow_eq, ten_pow]
  push_cast
  field_simp
  rw [mul_assoc, ten_pow]

theorem readsBack_iff : readsBack bits d ↔ (ofDecimal d).magnitude = bits := decide_eq_true_iff

theorem readsBack_congr (same : d.value = e.value) (h : readsBack bits d) : readsBack bits e := by
  rw [readsBack_iff] at h ⊢
  exact Nat.le_antisymm (h ▸ magnitude_ofDecimal_le same.ge) (h ▸ magnitude_ofDecimal_le same.le)

theorem readsBack_between (low : d.value ≤ e.value) (high : e.value ≤ f.value)
    (hd : readsBack bits d) (hf : readsBack bits f) : readsBack bits e := by
  rw [readsBack_iff] at hd hf ⊢
  exact Nat.le_antisymm (hf ▸ magnitude_ofDecimal_le high) (hd ▸ magnitude_ofDecimal_le low)

theorem readsBack_decimalUnits (finite : bits < infinityBits) :
    readsBack bits (gridDecimal 0 (decimalUnits bits)) := by
  obtain ⟨n, approximates, magnitude⟩ := approximates_ofDecimal (gridDecimal 0 (decimalUnits bits))
  rw [value_gridDecimal_zero] at approximates
  rw [readsBack_iff, magnitude, approximates.unique (approximates_scale bits)]
  exact Nat.min_eq_left (Nat.le_of_lt finite)

theorem readsBack_zero (zero : d.value = 0) (h : readsBack bits d) : bits = 0 := by
  obtain ⟨n, approximates, magnitude⟩ := approximates_ofDecimal d
  rw [zero.trans scale_zero.symm] at approximates
  rw [readsBack_iff, magnitude] at h
  have := approximates.unique (approximates_scale 0)
  omega

/-- Said of the function, for whoever compares the two values at an argument evaluates what is read
back there. -/
theorem neighbour?_eq : neighbour? = fun bits value grid =>
    let spacing := Nat.pow 10 grid
    let lower := gridDecimal grid (value / spacing)
    let upper := gridDecimal grid (value / spacing + 1)
    match readsBack bits lower, readsBack bits upper with
    | false, false => none
    | true, false => some lower
    | false, true => some upper
    | true, true => some (if 2 * (value % spacing) < spacing then lower else upper) := by
  delta neighbour?
  rfl

theorem neighbour?_cases (bits value grid : Nat) :
    (neighbour? bits value grid = none ∧
      readsBack bits (gridDecimal grid (value / 10 ^ grid)) = false ∧
      readsBack bits (gridDecimal grid (value / 10 ^ grid + 1)) = false) ∨
    ∃ m, neighbour? bits value grid = some (gridDecimal grid m) ∧
      (m = value / 10 ^ grid ∨ m = value / 10 ^ grid + 1) ∧
      readsBack bits (gridDecimal grid m) := by
  rw [neighbour?_eq]
  simp only [Nat.pow_eq]
  split
  next low high => exact .inl ⟨rfl, low, high⟩
  next low high => exact .inr ⟨_, rfl, .inl rfl, low⟩
  next low high => exact .inr ⟨_, rfl, .inr rfl, high⟩
  next low high =>
    right
    split
    · exact ⟨_, rfl, .inl rfl, low⟩
    · exact ⟨_, rfl, .inr rfl, high⟩

theorem exists_settles (own : readsBack bits (gridDecimal 0 value)) (top : Nat) :
    ∃ grid m, shortestFrom bits value top = gridDecimal grid m ∧
      Settles bits value top grid m := by
  induction top with
  | zero =>
    refine ⟨0, value, rfl, Nat.le_refl 0, .inl (Nat.div_one value).symm, own, ?_⟩
    intro g above below
    omega
  | succ top ih =>
    rw [shortestFrom]
    rcases neighbour?_cases bits value (top + 1) with ⟨none, -⟩ | ⟨m, some, beside, reads⟩
    · obtain ⟨grid, m, same, settles⟩ := ih
      rw [none]
      refine ⟨grid, m, same, Nat.le_succ_of_le settles.le_top, settles.beside,
        settles.reads, ?_⟩
      intro g above below
      rcases Nat.le_succ_iff.1 below with below | rfl
      · exact settles.coarser g above below
      · exact none
    · rw [some]
      refine ⟨top + 1, m, rfl, Nat.le_refl _, beside, reads, ?_⟩
      intro g above below
      omega

theorem neighbour?_ne_none (own : readsBack bits (gridDecimal 0 value))
    (h : readsBack bits (gridDecimal grid k)) : neighbour? bits value grid ≠ none := by
  intro none
  obtain ⟨low, high⟩ : readsBack bits (gridDecimal grid (value / 10 ^ grid)) = false ∧
      readsBack bits (gridDecimal grid (value / 10 ^ grid + 1)) = false := by
    rcases neighbour?_cases bits value grid with ⟨-, none⟩ | ⟨m, some, -⟩
    · exact none
    · rw [none] at some
      cases some
  have pos := spacing_pos grid
  have unit : spacing grid = 10 ^ grid * spacing 0 := by rw [← spacing_add, Nat.zero_add]
  have below : ((value / 10 ^ grid : ℕ) : ℚ) * 10 ^ grid ≤ value := by
    exact_mod_cast Nat.div_mul_le_self value (10 ^ grid)
  have above : (value : ℚ) ≤ ((value / 10 ^ grid + 1 : ℕ) : ℚ) * 10 ^ grid := by
    exact_mod_cast (Nat.lt_mul_of_div_lt (Nat.lt_succ_self _) (by positivity)).le
  -- One of the neighbours is between `value` and what reads back, so it reads back as they do.
  rcases Nat.lt_or_ge (value / 10 ^ grid) k with upper | lower
  · refine absurd (readsBack_between ?_ ?_ own h) (by rw [high]; exact Bool.false_ne_true)
    · rw [value_gridDecimal, value_gridDecimal, unit, ← mul_assoc]
      exact mul_le_mul_of_nonneg_right above (spacing_pos 0).le
    · rw [value_gridDecimal, value_gridDecimal]
      exact mul_le_mul_of_nonneg_right (Nat.cast_le.2 upper) pos.le
  · refine absurd (readsBack_between ?_ ?_ h own) (by rw [low]; exact Bool.false_ne_true)
    · rw [value_gridDecimal, value_gridDecimal]
      exact mul_le_mul_of_nonneg_right (Nat.cast_le.2 lower) pos.le
    · rw [value_gridDecimal, value_gridDecimal, unit, ← mul_assoc]
      exact mul_le_mul_of_nonneg_right below (spacing_pos 0).le

theorem Settles.not_readsBack (h : Settles bits value top grid m)
    (own : readsBack bits (gridDecimal 0 value)) (above : grid < g) (below : g ≤ top) (k : Nat) :
    ¬ readsBack bits (gridDecimal g k) :=
  fun reads => neighbour?_ne_none own reads (h.coarser g above below)

theorem pow_lt_pow_of_pow_le {a b p q : Nat} (le : a ^ p ≤ b ^ q) (base : 1 < b) (pos : 0 < p)
    (n : Nat) : a ^ n < b ^ (n * q / p + 1) := by
  apply lt_of_pow_lt_pow_left₀ p (Nat.zero_le _)
  calc (a ^ n) ^ p = (a ^ p) ^ n := by rw [← Nat.pow_mul, ← Nat.pow_mul, Nat.mul_comm]
    _ ≤ (b ^ q) ^ n := Nat.pow_le_pow_left le n
    _ = b ^ (n * q) := by rw [← Nat.pow_mul, Nat.mul_comm]
    _ < b ^ ((n * q / p + 1) * p) :=
      Nat.pow_lt_pow_right base (Nat.lt_mul_of_div_lt (Nat.lt_succ_self _) pos)
    _ = (b ^ (n * q / p + 1)) ^ p := Nat.pow_mul ..

theorem lt_powerAbove (n : Nat) : n < 10 ^ powerAbove n :=
  calc n < 2 ^ (n.log2 + 1) := Nat.lt_log2_self
    _ < 10 ^ powerAbove n :=
      pow_lt_pow_of_pow_le (by decide +kernel) (by decide) (by decide) (n.log2 + 1)

theorem readsBack_of_ofDecimal (h : ofDecimal d = x) : readsBack x.magnitude d :=
  readsBack_iff.2 (congrArg magnitude h)

theorem Settles.eq_one (h : Settles bits value top top m) (nonzero : bits ≠ 0)
    (below : value < 10 ^ top) : m = 1 := by
  rcases h.beside with zero | one
  · rw [Nat.div_eq_of_lt below] at zero
    refine absurd (readsBack_zero ?_ h.reads) nonzero
    rw [value_gridDecimal, zero, Nat.cast_zero, zero_mul]
  · rw [one, Nat.div_eq_of_lt below]

theorem spacing_eq_zpow (grid : Nat) : spacing grid = 10 ^ (grid - (1074 : ℕ) : ℤ) := by
  rw [spacing, zpow_sub₀ (by norm_num), zpow_natCast, zpow_natCast]

theorem hasDigits_gridDecimal {n : Nat} (below : m < 10 ^ n) (grid : Nat) :
    (gridDecimal grid m).HasDigits n :=
  ⟨m, _, below, by rw [value_gridDecimal, spacing_eq_zpow]⟩

theorem Settles.exponent_le (h : Settles bits value top grid m) (inner : grid < top)
    (own : readsBack bits (gridDecimal 0 value)) (reads : readsBack bits other) {e : ℤ}
    (value_eq : other.value = k * 10 ^ e) : e ≤ grid - (1074 : ℕ) := by
  by_contra coarse
  obtain ⟨extra, rfl⟩ : ∃ extra : ℕ, e = ((grid + 1 + extra : ℕ) : ℤ) - (1074 : ℕ) :=
    ⟨(e - (grid + 1) + (1074 : ℕ)).toNat, by omega⟩
  have same : other.value = (gridDecimal (grid + 1) (k * 10 ^ extra)).value := by
    rw [gridDecimal_mul_pow, value_gridDecimal, spacing_eq_zpow, value_eq]
  exact h.not_readsBack own (Nat.lt_succ_self grid) inner _ (readsBack_congr same reads)

/-- A decimal of so many digits that reads back leaves the coefficient no room for more: the power
of ten between the two would read back on the next grid. -/
theorem Settles.le_pow (h : Settles bits value top grid m) (inner : grid < top)
    (own : readsBack bits (gridDecimal 0 value)) (reads : readsBack bits other) {n : Nat} {e : ℤ}
    (below : k < 10 ^ (n + 1)) (value_eq : other.value = k * 10 ^ e) : m ≤ 10 ^ (n + 1) := by
  by_contra more
  have exponent := h.exponent_le inner own reads value_eq
  have between : (gridDecimal (grid + 1) (10 ^ n)).value = 10 ^ (n + 1) * spacing grid := by
    rw [← gridDecimal_mul_pow, ← Nat.pow_add, value_gridDecimal]
    push_cast
    rfl
  refine h.not_readsBack own (Nat.lt_succ_self grid) inner (10 ^ n)
    (readsBack_between ?_ ?_ reads h.reads)
  · have low : (k : ℚ) ≤ 10 ^ (n + 1) := by exact_mod_cast below.le
    have spread : (10 : ℚ) ^ e ≤ spacing grid := by
      rw [spacing_eq_zpow]
      exact zpow_le_zpow_right₀ (by norm_num) exponent
    rw [between, value_eq]
    exact mul_le_mul low spread (zpow_nonneg (by norm_num) e) (by positivity)
  · have high : (10 : ℚ) ^ (n + 1) ≤ m := by exact_mod_cast Nat.le_of_not_le more
    rw [between, value_gridDecimal]
    exact mul_le_mul_of_nonneg_right high (spacing_pos grid).le

theorem Settles.hasDigits (h : Settles bits value top grid m) (nonzero : bits ≠ 0)
    (below : value < 10 ^ top) (own : readsBack bits (gridDecimal 0 value))
    (reads : readsBack bits other) {n : Nat} (digits : other.HasDigits n) :
    (gridDecimal grid m).HasDigits n := by
  obtain ⟨k, e, few, value_eq⟩ := digits
  cases n with
  | zero =>
    obtain rfl : k = 0 := by omega
    refine absurd (readsBack_zero ?_ reads) nonzero
    rw [value_eq, Nat.cast_zero, zero_mul]
  | succ n =>
    have one : 1 < 10 ^ (n + 1) := Nat.one_lt_pow (Nat.succ_ne_zero n) (by decide)
    rcases h.le_top.lt_or_eq with inner | rfl
    · rcases (h.le_pow inner own reads few value_eq).lt_or_eq with less | rfl
      · exact hasDigits_gridDecimal less grid
      · have carried := gridDecimal_mul_pow grid 1 (n + 1)
        rw [Nat.one_mul] at carried
        rw [Decimal.HasDigits, carried]
        exact hasDigits_gridDecimal one _
    · rw [h.eq_one nonzero below]
      exact hasDigits_gridDecimal one grid

theorem Settles.last (h : Settles bits value top grid m) (nonzero : bits ≠ 0)
    (below : value < 10 ^ top) (own : readsBack bits (gridDecimal 0 value)) : m % 10 ≠ 0 := by
  intro last
  rcases h.le_top.lt_or_eq with inner | rfl
  · have same : (gridDecimal grid m).value = (gridDecimal (grid + 1) (m / 10)).value := by
      rw [← gridDecimal_mul_pow, Nat.pow_one, Nat.div_mul_cancel (Nat.dvd_of_mod_eq_zero last)]
    exact h.not_readsBack own (Nat.lt_succ_self grid) inner _ (readsBack_congr same h.reads)
  · have := h.eq_one nonzero below
    omega

theorem shortest_magnitude (positive : x.negative = false) (finite : x.isFinite)
    (nonzero : x.magnitude ≠ 0) : x.Shortest (shortest x.magnitude) := by
  have own := readsBack_decimalUnits (of_decide_eq_true finite)
  have below := lt_powerAbove (decimalUnits x.magnitude)
  obtain ⟨grid, m, same, settles⟩ := exists_settles own (powerAbove (decimalUnits x.magnitude))
  rw [shortest, same]
  constructor
  case rounds => exact eq_of_magnitude_eq positive.symm (readsBack_iff.1 settles.reads)
  case fewest =>
    intro other rounds n digits
    exact settles.hasDigits nonzero below own (readsBack_of_ofDecimal rounds) digits
  case last =>
    intro places
    have last := settles.last nonzero below own
    rw [gridDecimal] at places ⊢
    split
    next fine => exact last
    next coarse => simp [coarse] at places

theorem shortest_zero (positive : x.negative = false) (zero : x.magnitude = 0) :
    x.Shortest ⟨0, 0⟩ where
  rounds := eq_of_magnitude_eq positive.symm (Eq.trans (by decide +kernel) zero.symm)
  fewest _ _ n _ := ⟨0, 0, by positivity, by simp [Decimal.value]⟩
  last places := absurd rfl places

theorem exists_shortest (positive : x.negative = false) (finite : x.isFinite) :
    ∃ d, x.toText = d.toNumeral ∧ x.Shortest d := by
  have less : x.magnitude < infinityBits := of_decide_eq_true finite
  have number : x.isNaN = false := decide_eq_false (by omega)
  have bounded : x.isInfinite = false := decide_eq_false (by omega)
  simp only [toText, number, bounded, positive, Bool.false_eq_true, if_false, List.nil_append]
  by_cases zero : x.magnitude = 0
  · exact ⟨⟨0, 0⟩, by rw [if_pos zero]; rfl, shortest_zero positive zero⟩
  · exact ⟨_, if_neg zero, shortest_magnitude positive finite zero⟩

end Binary64

theorem Decimal.isDigits_digits {text : Text} (d : Decimal) (some : text ≠ [])
    (part : ∀ c ∈ text, c ∈ d.digits) : IsDigits text :=
  ⟨some, fun c hc => (isDigit_iff c).1 (isDigit_of_mem_digits (part c hc))⟩

theorem Decimal.isNumeral_toNumeral (d : Decimal) : IsNumeral d.toNumeral := by
  have size := d.places_lt_length_digits
  rw [toNumeral]
  split
  next whole =>
    refine .whole (d.isDigits_digits ?_ fun _ => id)
    exact List.ne_nil_of_length_pos (by omega)
  next fractional =>
    refine .fractional (d.isDigits_digits ?_ fun _ => List.mem_of_mem_take)
      (d.isDigits_digits ?_ fun _ => List.mem_of_mem_drop)
    · exact List.ne_nil_of_length_pos (by rw [List.length_take]; omega)
    · exact List.ne_nil_of_length_pos (by rw [List.length_drop]; omega)

theorem Word.scan_eq (w : Word) : scan w.lexeme =
    ⟨[w.on (1 + w.lexeme.lineFeeds), .endOfInput (1 + w.lexeme.lineFeeds)], []⟩ := by
  have spaced : Spaced [(w, [])] := .last blanks_nil
  have whole : printed [(w, [])] = w.lexeme := by simp [printed]
  have scanned := scan_spaced blanks_nil spaced
  rwa [List.nil_append, whole] at scanned

theorem scan_toNumeral (d : Decimal) : scan d.toNumeral =
    ⟨[.number d.toNumeral (.ofDecimal d) 1, .endOfInput 1], []⟩ := by
  have wf : WellFormed .number d.toNumeral (some (.number (.ofDecimal d))) := by
    have number := WellFormed.number d.isNumeral_toNumeral
    rwa [Decimal.ofNumeral_toNumeral] at number
  have line := Text.lineFeeds_eq_zero (wf.lineFeed_not_mem nofun)
  have scanned := Word.scan_eq ⟨.number, _, _, wf⟩
  rwa [line] at scanned

/-- A number that is finite is printed with the fewest digits that round to it, without an exponent
and with a point only before digits that count, and what is printed scans to that number alone. -/
theorem printed_numbers_scan_back (source : Text) :
    ∀ t ∈ (scan source).tokens, t.kind = .number →
      ∃ x, t.literal = some (.number x) ∧
        (x.isFinite →
          (∃ d, (Literal.number x).render = d.toNumeral ∧ x.Shortest d) ∧
            scan (Literal.number x).render =
              ⟨[.number (Literal.number x).render x 1, .endOfInput 1], []⟩) := by
  intro t ht number
  have wf := wellFormed_of_mem_scan ht (by simp [number])
  rw [number] at wf
  obtain ⟨-, literal⟩ := wf.number_inv
  refine ⟨_, literal, ?_⟩
  intro finite
  obtain ⟨d, text, shortest⟩ := Binary64.exists_shortest (Binary64.negative_ofDecimal _) finite
  refine ⟨⟨d, text, shortest⟩, ?_⟩
  rw [Literal.render, text, scan_toNumeral, shortest.rounds]

theorem printed_numbers_scan_back_of_tenth :
    let source := "0.10000000000000000001".toList
    let x : Binary64 := ⟨false, 0x3FB999999999999A, by decide⟩
    let t : Token := .number source x 1
    let printed := (Literal.number x).render
    t ∈ (scan source).tokens ∧ t.kind = .number ∧ x.isFinite ∧
      (∃ d, printed = d.toNumeral ∧ x.Shortest d) ∧
        scan printed = ⟨[.number printed x 1, .endOfInput 1], []⟩ := by
  have scanned : .number "0.10000000000000000001".toList ⟨false, 0x3FB999999999999A, by decide⟩ 1 ∈
      (scan "0.10000000000000000001".toList).tokens := by decide +kernel
  obtain ⟨x, literal, printed⟩ := printed_numbers_scan_back _ _ scanned rfl
  cases literal
  exact ⟨scanned, rfl, rfl, printed rfl⟩

end LoxLexer
