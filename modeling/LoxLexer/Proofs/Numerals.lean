import Mathlib.Data.List.TakeWhile
import LoxLexer.Proofs.Nearest
import LoxLexer.Proofs.Printing

namespace LoxLexer

def digitValue (c : Char) : ℚ := (c.toNat - '0'.toNat : ℕ)

def Text.wholeValue : Text → ℚ
  | [] => 0
  | c :: rest => digitValue c * 10 ^ rest.length + Text.wholeValue rest

def Text.placesValue : Text → ℚ
  | [] => 0
  | c :: rest => (digitValue c + Text.placesValue rest) / 10

inductive Denotes : Text → ℚ → Prop
  | whole : IsDigits text → Denotes text (Text.wholeValue text)
  | fractional : IsDigits whole → IsDigits places →
      Denotes (whole ++ '.' :: places) (Text.wholeValue whole + Text.placesValue places)

def Decimal.value (d : Decimal) : ℚ := d.coefficient / 10 ^ d.places

namespace Decimal

def read? (text : Text) : Option (Decimal × Text) :=
  let whole := text.takeWhile Char.isDigit
  match text.dropWhile Char.isDigit with
  | '.' :: rest =>
    let places := rest.takeWhile Char.isDigit
    if whole = [] ∧ places = [] then none
    else some (⟨Nat.ofDigitChars 10 (whole ++ places) 0, places.length⟩,
      rest.dropWhile Char.isDigit)
  | rest => if whole = [] then none else some (⟨Nat.ofDigitChars 10 whole 0, 0⟩, rest)

def shift (d : Decimal) (exponent : Int) : Decimal :=
  ⟨d.coefficient * Nat.pow 10 (exponent - d.places).toNat, (d.places - exponent).toNat⟩

end Decimal

def readNatural? (text : Text) : Option Nat :=
  if text ≠ [] ∧ text.all Char.isDigit then some (Nat.ofDigitChars 10 text 0) else none

def readExponent? : Text → Option Int
  | [] => some 0
  | mark :: rest =>
    if mark = 'e' ∨ mark = 'E' then
      match rest with
      | '-' :: digits => (readNatural? digits).map fun n => -(n : Int)
      | '+' :: digits => (readNatural? digits).map Int.ofNat
      | digits => (readNatural? digits).map Int.ofNat
    else none

namespace Binary64

def zero : Binary64 := ⟨false, 0, by decide⟩

def infinity : Binary64 := ⟨false, infinityBits, by decide⟩

def quietNaN : Binary64 := ⟨false, 0x7FF8000000000000, by decide⟩

def readUnsigned? (text : Text) : Option Binary64 :=
  let word := text.map Char.toLower
  if word = "inf".toList ∨ word = "infinity".toList then some infinity
  else if word = "nan".toList then some quietNaN
  else do
    let (d, rest) ← Decimal.read? text
    let exponent ← readExponent? rest
    return ofDecimal (d.shift exponent)

/-- Decimals with a sign and an exponent where there is one, and the words for what is not finite.
Nothing is read from any other text. -/
def read? : Text → Option Binary64
  | '-' :: text => (readUnsigned? text).map fun x => { x with negative := true }
  | '+' :: text => readUnsigned? text
  | text => readUnsigned? text

inductive AtMost : Binary64 → Binary64 → Prop
  | finite : x.isFinite → y.isFinite → x.value ≤ y.value → AtMost x y
  | below : x.isInfinite → x.negative → y.isNaN = false → AtMost x y
  | above : x.isNaN = false → y.isInfinite → y.negative = false → AtMost x y

end Binary64

inductive Literal.SameBits : Literal → Literal → Prop
  | number : x.toWord = y.toWord → SameBits (.number x) (.number y)
  | string : SameBits (.string value) (.string value)

/-- The lexeme denotes one number, it can be read, and what is read is that number rounded. -/
structure Token.Rounds (t : Token) (v : ℚ) (x : Binary64) : Prop where
  denotes : ∀ w, Denotes t.lexeme w ↔ w = v
  read : Binary64.read? t.lexeme = some x
  literal : t.literal = some (.number x)
  rounds : x.RoundsTo v

variable {text whole places : Text} {v w : ℚ}

theorem cast_ofDigitChars (text : Text) :
    (Nat.ofDigitChars 10 text 0 : ℚ) = Text.wholeValue text := by
  induction text with
  | nil => simp [Text.wholeValue]
  | cons c rest ih =>
    rw [Nat.ofDigitChars_cons, Nat.ofDigitChars_eq_ofDigitChars_zero, Text.wholeValue, ← ih,
      digitValue]
    push_cast
    ring

theorem placesValue_eq (text : Text) :
    Text.placesValue text = Nat.ofDigitChars 10 text 0 / 10 ^ text.length := by
  rw [cast_ofDigitChars]
  induction text with
  | nil => simp [Text.placesValue, Text.wholeValue]
  | cons c rest ih =>
    rw [Text.placesValue, ih, Text.wholeValue, List.length_cons, pow_succ]
    field_simp

theorem isDigit_of_isDigits (h : IsDigits text) : ∀ c ∈ text, c.isDigit := by
  intro c hc
  exact (isDigit_iff c).2 (h.2 c hc)

theorem takeWhile_isDigit (h : IsDigits text) : text.takeWhile Char.isDigit = text :=
  List.takeWhile_eq_self_iff.2 (isDigit_of_isDigits h)

theorem dropWhile_isDigit (h : IsDigits text) : text.dropWhile Char.isDigit = [] :=
  List.dropWhile_eq_nil_iff.2 (isDigit_of_isDigits h)

theorem takeWhile_point (h : IsDigits whole) (places : Text) :
    (whole ++ '.' :: places).takeWhile Char.isDigit = whole := by
  rw [List.takeWhile_append_of_pos (isDigit_of_isDigits h), List.takeWhile_cons_of_neg (by decide),
    List.append_nil]

theorem dropWhile_point (h : IsDigits whole) (places : Text) :
    (whole ++ '.' :: places).dropWhile Char.isDigit = '.' :: places := by
  rw [List.dropWhile_append_of_pos (isDigit_of_isDigits h), List.dropWhile_cons_of_neg (by decide)]

namespace Decimal

theorem ofNumeral_whole (h : IsDigits text) :
    ofNumeral text = ⟨Nat.ofDigitChars 10 text 0, 0⟩ := by
  simp [ofNumeral, takeWhile_isDigit h, dropWhile_isDigit h]

theorem ofNumeral_point (h : IsDigits whole) (places : Text) :
    ofNumeral (whole ++ '.' :: places) =
      ⟨Nat.ofDigitChars 10 (whole ++ places) 0, places.length⟩ := by
  simp only [ofNumeral, takeWhile_point h, dropWhile_point h, List.tail_cons]

end Decimal

theorem Denotes.eq_value (h : Denotes text v) : v = (Decimal.ofNumeral text).value := by
  cases h with
  | whole digits =>
    rw [Decimal.ofNumeral_whole digits, Decimal.value, cast_ofDigitChars, pow_zero, div_one]
  | @fractional whole places digits digits' =>
    rw [Decimal.ofNumeral_point digits, Decimal.value, Nat.ofDigitChars_append,
      Nat.ofDigitChars_eq_ofDigitChars_zero, placesValue_eq, ← cast_ofDigitChars]
    push_cast
    field_simp

theorem IsNumeral.denotes (h : IsNumeral text) : ∃ v, Denotes text v := by
  cases h with
  | whole digits => exact ⟨_, .whole digits⟩
  | fractional digits digits' => exact ⟨_, .fractional digits digits'⟩

theorem IsNumeral.denotes_iff (h : IsNumeral text) :
    Denotes text v ↔ v = (Decimal.ofNumeral text).value := by
  refine ⟨Denotes.eq_value, ?_⟩
  rintro rfl
  obtain ⟨v, denotes⟩ := h.denotes
  exact denotes.eq_value ▸ denotes

theorem Decimal.read?_of_isNumeral (h : IsNumeral text) :
    Decimal.read? text = some (Decimal.ofNumeral text, []) := by
  cases h with
  | whole digits =>
    simp [read?, ofNumeral_whole digits, takeWhile_isDigit digits, dropWhile_isDigit digits,
      digits.1]
  | @fractional whole places digits digits' =>
    simp [read?, ofNumeral_point digits, takeWhile_point digits, dropWhile_point digits,
      takeWhile_isDigit digits', dropWhile_isDigit digits', digits.1]

theorem Decimal.shift_zero (d : Decimal) : d.shift 0 = d := by
  have places : ((0 : Int) - d.places).toNat = 0 := by omega
  rw [shift, places, Int.sub_zero, Int.toNat_natCast]
  exact congrArg (mk · d.places) (Nat.mul_one _)

theorem toLower_of_isDigit {c : Char} (h : c.isDigit) : c.toLower = c := by
  apply dif_neg
  rintro ⟨upper, -⟩
  exact absurd (UInt32.le_trans upper ((isDigit_iff c).1 h).2) (by decide)

namespace Binary64

theorem readUnsigned?_of_isNumeral (h : IsNumeral text) :
    readUnsigned? text = some (ofDecimal (.ofNumeral text)) := by
  obtain ⟨c, more, rfl, digit⟩ := h.exists_cons
  have letter (first : Char) (rest : Text) (none : first.isDigit = false) :
      (c :: more).map Char.toLower ≠ first :: rest := by
    intro word
    rw [List.map_cons, toLower_of_isDigit digit] at word
    simp [(List.cons.inj word).1, none] at digit
  have inf : (c :: more).map Char.toLower ≠ "inf".toList := letter 'i' _ rfl
  have infinity : (c :: more).map Char.toLower ≠ "infinity".toList := letter 'i' _ rfl
  have nan : (c :: more).map Char.toLower ≠ "nan".toList := letter 'n' _ rfl
  rw [readUnsigned?, if_neg (not_or.2 ⟨inf, infinity⟩), if_neg nan, Decimal.read?_of_isNumeral h]
  exact congrArg (some <| ofDecimal ·) (Decimal.shift_zero _)

theorem read?_of_isNumeral (h : IsNumeral text) :
    read? text = some (ofDecimal (.ofNumeral text)) := by
  rw [← readUnsigned?_of_isNumeral h]
  obtain ⟨c, more, rfl, digit⟩ := h.exists_cons
  rw [read?.eq_def]
  split
  next minus => simp [(List.cons.inj minus).1] at digit
  next plus => simp [(List.cons.inj plus).1] at digit
  next => rfl

theorem approximates_ofDecimal (d : Decimal) :
    ∃ n, Approximates d.value n ∧ (ofDecimal d).magnitude = min n infinityBits := by
  have positive : 0 < 10 ^ d.places := Nat.pow_pos (by decide)
  have nearest := approximates_nearestBits d.coefficient positive
  rwa [Nat.cast_pow, Nat.cast_ofNat] at nearest

theorem roundsTo_ofDecimal (d : Decimal) : RoundsTo d.value (ofDecimal d) := by
  obtain ⟨n, approximates, magnitude⟩ := approximates_ofDecimal d
  have nonneg : 0 ≤ d.value := by rw [Decimal.value]; positivity
  exact approximates.roundsTo nonneg rfl magnitude

theorem magnitude_ofDecimal_le {d e : Decimal} (le : d.value ≤ e.value) :
    (ofDecimal d).magnitude ≤ (ofDecimal e).magnitude := by
  obtain ⟨m, hd, low⟩ := approximates_ofDecimal d
  obtain ⟨n, he, high⟩ := approximates_ofDecimal e
  rw [low, high]
  exact min_le_min_right _ (hd.le he le)

theorem value_ofDecimal (d : Decimal) : (ofDecimal d).value = scale (ofDecimal d).magnitude := by
  rw [value_eq, negative_ofDecimal]
  simp

theorem atMost_ofDecimal {d e : Decimal} (le : d.value ≤ e.value) :
    AtMost (ofDecimal d) (ofDecimal e) := by
  have magnitude := magnitude_ofDecimal_le le
  have bound : (ofDecimal e).magnitude ≤ infinityBits := nearestBits_le ..
  rcases bound.lt_or_eq with finite | infinite
  · refine .finite (decide_eq_true (magnitude.trans_lt finite)) (decide_eq_true finite) ?_
    rw [value_ofDecimal, value_ofDecimal]
    exact scale_strictMono.monotone magnitude
  · exact .above (isNaN_ofDecimal d) (decide_eq_true infinite) rfl

theorem eq_of_magnitude_eq {x y : Binary64} (negative : x.negative = y.negative)
    (magnitude : x.magnitude = y.magnitude) : x = y := by
  cases x
  cases y
  simp_all

theorem agrees_ofDecimal_iff (d e : Decimal) :
    (ofDecimal d).agrees (ofDecimal e) ↔ ofDecimal d = ofDecimal e := by
  have zeros (low : (ofDecimal d).magnitude = 0) (high : (ofDecimal e).magnitude = 0) :
      ofDecimal d = ofDecimal e := eq_of_magnitude_eq rfl (low.trans high.symm)
  simp only [agrees, isNaN_ofDecimal, Bool.not_false, Bool.true_and, Bool.or_eq_true,
    Bool.and_eq_true, decide_eq_true_eq]
  exact ⟨fun h => h.elim id fun h => zeros h.1 h.2, .inl⟩

theorem toWord_injective : Function.Injective toWord :=
  Function.LeftInverse.injective ofWord_toWord

end Binary64

inductive Literal.Scanned : Literal → Prop
  | number (d : Decimal) : Scanned (.number (.ofDecimal d))
  | string (value : Text) : Scanned (.string value)

namespace Literal

theorem sameBits_number_iff {x y : Binary64} : SameBits (.number x) (.number y) ↔ x = y := by
  constructor
  · intro same
    cases same with
    | number bits => exact Binary64.toWord_injective bits
  · rintro rfl
    exact .number rfl

theorem sameBits_string_iff {v w : Text} : SameBits (.string v) (.string w) ↔ v = w := by
  constructor
  · intro same
    cases same
    rfl
  · rintro rfl
    exact .string

theorem Scanned.agrees_iff {l m : Literal} (hl : l.Scanned) (hm : m.Scanned) :
    l.agrees m ↔ l.SameBits m := by
  cases hl with
  | number d =>
    cases hm with
    | number e => rw [agrees, Binary64.agrees_ofDecimal_iff, sameBits_number_iff]
    | string w => exact iff_of_false nofun nofun
  | string v =>
    cases hm with
    | number e => exact iff_of_false nofun nofun
    | string w => rw [agrees, decide_eq_true_iff, sameBits_string_iff]

theorem Scanned.agrees_self {l : Literal} (h : l.Scanned) : l.agrees l := by
  apply (h.agrees_iff h).2
  cases l with
  | number x => exact sameBits_number_iff.2 rfl
  | string v => exact sameBits_string_iff.2 rfl

end Literal

theorem WellFormed.scanned {kind : Kind} {l : Literal} (h : WellFormed kind text (some l)) :
    l.Scanned := by
  cases h with
  | number _ => exact .number _
  | string _ => exact .string _

theorem WellFormed.numeral {kind : Kind} {x : Binary64}
    (h : WellFormed kind text (some (.number x))) :
    IsNumeral text ∧ x = .ofDecimal (.ofNumeral text) := by
  cases h with
  | number numeral => exact ⟨numeral, rfl⟩

theorem WellFormed.number_inv {literal : Option Literal} (h : WellFormed .number text literal) :
    IsNumeral text ∧ literal = some (.number (.ofDecimal (.ofNumeral text))) := by
  cases h with
  | spelled spelled => simp [Kind.spelling?] at spelled
  | number numeral => exact ⟨numeral, rfl⟩

variable {source : Text} {t : Token} {l : Literal} {x : Binary64}

theorem wellFormed_of_literal (ht : t ∈ (scan source).tokens) (hl : t.literal = some l) :
    WellFormed t.kind t.lexeme (some l) := by
  rw [← hl]
  apply wellFormed_of_mem_scan ht
  intro eof
  rw [tokens_scan, List.mem_append, List.mem_singleton] at ht
  rcases ht with ht | rfl
  · obtain ⟨p, hp, token⟩ := List.mem_filterMap.1 ht
    exact ((cuts_pieces 1 source).wellFormed hp (Piece.item?_of_token? token)).1.kind_ne_eof eof
  · cases hl

theorem numeral_of_literal (ht : t ∈ (scan source).tokens) (hl : t.literal = some (.number x)) :
    IsNumeral t.lexeme ∧ x = .ofDecimal (.ofNumeral t.lexeme) :=
  (wellFormed_of_literal ht hl).numeral

theorem IsNumeral.rounds (h : IsNumeral t.lexeme)
    (hl : t.literal = some (.number (.ofDecimal (.ofNumeral t.lexeme)))) :
    t.Rounds (Decimal.ofNumeral t.lexeme).value (.ofDecimal (.ofNumeral t.lexeme)) where
  denotes _ := h.denotes_iff
  read := Binary64.read?_of_isNumeral h
  literal := hl
  rounds := Binary64.roundsTo_ofDecimal _

theorem listsAgree_self {ts : List Token} (h : ∀ t ∈ ts, ∀ l, t.literal = some l → l.agrees l) :
    Token.listsAgree ts ts := by
  induction ts with
  | nil => rfl
  | cons t ts ih =>
    obtain ⟨first, later⟩ := List.forall_mem_cons.1 h
    rw [Token.listsAgree, ih later, Bool.and_true]
    cases hl : t.literal with
    | none => simp [Token.agrees, hl]
    | some l => simp [Token.agrees, hl, first l hl]

/-- Each number token holds the number that its lexeme denotes, rounded to nearest. Compared by
value or by bits, literals come to the same, and they rise with what is denoted. -/
theorem numbers_correctly_rounded (source : Text) :
    (∀ t ∈ (scan source).tokens, t.kind = .number → ∃ v x, t.Rounds v x) ∧
    Token.listsAgree (scan source).tokens (scan source).tokens ∧
    ∀ other, ∀ t ∈ (scan source).tokens, ∀ u ∈ (scan other).tokens,
      (∀ l m, t.literal = some l → u.literal = some m → (l.agrees m ↔ l.SameBits m)) ∧
      ∀ v x w y, Denotes t.lexeme v → t.literal = some (.number x) →
        Denotes u.lexeme w → u.literal = some (.number y) → v ≤ w → x.AtMost y := by
  refine ⟨?_, ?_, ?_⟩
  · intro t ht number
    have wf := wellFormed_of_mem_scan ht (by simp [number])
    rw [number] at wf
    obtain ⟨numeral, literal⟩ := wf.number_inv
    exact ⟨_, _, numeral.rounds literal⟩
  · apply listsAgree_self
    intro t ht l hl
    exact (wellFormed_of_literal ht hl).scanned.agrees_self
  · intro other t ht u hu
    constructor
    · intro l m hl hm
      exact (wellFormed_of_literal ht hl).scanned.agrees_iff (wellFormed_of_literal hu hm).scanned
    · intro v x w y low hx high hy le
      obtain ⟨-, rfl⟩ := numeral_of_literal ht hx
      obtain ⟨-, rfl⟩ := numeral_of_literal hu hy
      rw [low.eq_value, high.eq_value] at le
      exact Binary64.atMost_ofDecimal le

theorem numbers_correctly_rounded_half_way :
    let source := "9007199254740993".toList
    let t : Token := .number source ⟨false, 0x4340000000000000, by decide⟩ 1
    t ∈ (scan source).tokens ∧ t.kind = .number ∧ ∃ v x, t.Rounds v x := by
  have scanned : .number "9007199254740993".toList ⟨false, 0x4340000000000000, by decide⟩ 1 ∈
      (scan "9007199254740993".toList).tokens := by decide +kernel
  exact ⟨scanned, rfl, (numbers_correctly_rounded _).1 _ scanned rfl⟩

end LoxLexer
