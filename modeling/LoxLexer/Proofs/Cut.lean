import LoxLexer.Proofs.Patterns

namespace LoxLexer

def Text.startsWith (p : Char → Bool) (text : Text) : Bool := text.head?.any p

@[simp] theorem Text.startsWith_nil (p : Char → Bool) : Text.startsWith p [] = false := rfl

@[simp] theorem Text.startsWith_cons (p : Char → Bool) (c : Char) (text : Text) :
    Text.startsWith p (c :: text) = p c := rfl

theorem takeWhile_eq_of_stop {p : Char → Bool} {run after : Text} (inside : ∀ d ∈ run, p d)
    (stop : after.startsWith p = false) : (run ++ after).takeWhile p = run := by
  rw [List.takeWhile_append_of_pos inside]
  cases after with
  | nil => simp
  | cons d after => rw [Text.startsWith_cons] at stop; simp [stop]

theorem forall_ne_iff {c : Char} {run : Text} : (∀ d ∈ run, decide (d ≠ c) = true) ↔ c ∉ run := by
  simp only [decide_eq_true_eq]
  exact List.forall_mem_ne'

theorem takeWhile_ne_append {stop : Char} {run : Text} (clean : stop ∉ run) (rest : Text) :
    (run ++ stop :: rest).takeWhile (· ≠ stop) = run :=
  takeWhile_eq_of_stop (forall_ne_iff.2 clean) (by simp)

theorem exists_run (p : Char → Bool) (text : Text) : ∃ run after, text = run ++ after ∧
    (∀ d ∈ run, p d) ∧ after.startsWith p = false ∧ text.takeWhile p = run := by
  refine ⟨text.takeWhile p, text.dropWhile p, List.takeWhile_append_dropWhile.symm, ?_, ?_, rfl⟩
  · intro d hd
    exact List.all_eq_true.1 List.all_takeWhile d hd
  · cases h : text.dropWhile p with
    | nil => rfl
    | cons d after =>
      have := List.head?_dropWhile_not p text
      simpa [h] using this

theorem fraction_eq_zero_iff (text : Text) :
    fraction text = 0 ↔ ∀ d rest, text = '.' :: d :: rest → d.isDigit = false := by
  rw [fraction.eq_def]
  split
  next d rest => cases hd : d.isDigit <;> simp [hd]
  next h => exact iff_of_true rfl fun d rest same => (h d rest same).elim

/-- The characters with which a punctuator or operator of one character becomes something else. -/
def Kind.goesOn (kind : Kind) (d : Char) : Bool :=
  kind = .slash && (d = '/' || d = '*') || kind.withEqual?.isSome && d = '='

inductive Cut : Shape → Text → Text → Prop
  | symbol : Kind.ofChar? c = some kind → after.startsWith kind.goesOn = false →
      Cut (.plain kind) [c] after
  | operator : Kind.ofChar? c = some kind → kind.withEqual? = some longer →
      Cut (.plain longer) [c, '='] after
  | word : isWordStart c → (∀ d ∈ more, isWordPart d) → after.startsWith isWordPart = false →
      Cut (.plain (.ofWord (c :: more))) (c :: more) after
  | whole : c.isDigit → (∀ d ∈ more, d.isDigit) → after.startsWith Char.isDigit = false →
      fraction after = 0 → Cut .number (c :: more) after
  | fractional : c.isDigit → (∀ d ∈ more, d.isDigit) → d.isDigit → (∀ e ∈ places, e.isDigit) →
      after.startsWith Char.isDigit = false → Cut .number (c :: (more ++ '.' :: d :: places)) after
  | string : '"' ∉ value → Cut .string ('"' :: (value ++ ['"'])) after
  | blank : isBlank c → Cut .blank [c] after
  | lineComment : '\n' ∉ body → after.startsWith (· ≠ '\n') = false →
      Cut .lineComment ('/' :: '/' :: body) after
  | blockComment : ClosesOnce body → Cut .blockComment ('/' :: '*' :: (body ++ ['*', '/'])) after
  | openString : '"' ∉ value → Cut .openString ('"' :: value) []
  | openComment : NeverCloses body → Cut .openComment ('/' :: '*' :: body) []
  | stray : c ≠ '/' → c ≠ '"' → isBlank c = false → c.isDigit = false → isWordStart c = false →
      Kind.ofChar? c = none → Cut (.stray c) [c] after

theorem closesOnce_nil : ClosesOnce [] := by
  intro before after h
  match before with
  | [] => simpa using h.symm
  | [_] => simp at h
  | _ :: _ :: before => simp at h

theorem closesOnce_cons (c : Char) (body : Text) :
    ClosesOnce (c :: body) ↔ ¬(c = '*' ∧ body.head? = some '/') ∧ ClosesOnce body := by
  constructor
  · intro h
    refine ⟨?_, fun before after ha => h (c :: before) after (by simp [ha])⟩
    rintro ⟨rfl, hb⟩
    cases body with
    | nil => simp at hb
    | cons d body =>
      simp only [List.head?_cons, Option.some.injEq] at hb
      simpa using h [] (body ++ ['*', '/']) (by simp [hb])
  · rintro ⟨hc, hb⟩ before after h
    cases before with
    | nil =>
      cases body with
      | nil => simp at h
      | cons d body => simp_all
    | cons d before => exact hb before after (by simpa using (List.cons.inj h).2)

theorem neverCloses_nil : NeverCloses [] := by simp [NeverCloses]

theorem neverCloses_cons (c : Char) (body : Text) :
    NeverCloses (c :: body) ↔ ¬(c = '*' ∧ body.head? = some '/') ∧ NeverCloses body := by
  constructor
  · intro h
    refine ⟨?_, fun before after ha => h (c :: before) after (by simp [ha])⟩
    rintro ⟨rfl, hb⟩
    cases body with
    | nil => simp at hb
    | cons d body => exact h [] body (by simpa using hb)
  · rintro ⟨hc, hb⟩ before after h
    cases before with
    | nil => simp_all
    | cons d before => exact hb before after (List.cons.inj h).2

theorem closing?_of_closesOnce {body : Text} (h : ClosesOnce body) (seen : Nat) (after : Text) :
    closing? seen (body ++ '*' :: '/' :: after) = some (seen + body.length + 2) := by
  induction body generalizing seen with
  | nil => simp [closing?]
  | cons c body ih =>
    obtain ⟨hc, hb⟩ := (closesOnce_cons c body).1 h
    have head : ¬(c = '*' ∧ (body ++ '*' :: '/' :: after).head? = some '/') := by
      cases body with
      | nil => simp
      | cons d body => exact hc
    rw [List.cons_append, closing?, if_neg head, ih hb, List.length_cons]
    congr 1
    omega

theorem closing?_eq_none_iff (seen : Nat) (body : Text) :
    closing? seen body = none ↔ NeverCloses body := by
  induction body generalizing seen with
  | nil => simp [closing?, neverCloses_nil]
  | cons c body ih =>
    rw [closing?, neverCloses_cons]
    split
    next h => simp [h]
    next h => simp [h, ih]

theorem exists_of_closing? {seen n : Nat} {text : Text} (h : closing? seen text = some n) :
    ∃ body after, text = body ++ '*' :: '/' :: after ∧ ClosesOnce body ∧
      n = seen + body.length + 2 := by
  induction text generalizing seen with
  | nil => simp [closing?] at h
  | cons c text ih =>
    rw [closing?] at h
    split at h
    next hc =>
      cases text with
      | nil => simp at hc
      | cons d text =>
        refine ⟨[], text, ?_, closesOnce_nil, ?_⟩
        · simpa using hc
        · simpa using h.symm
    next hc =>
      obtain ⟨body, after, rfl, hb, rfl⟩ := ih h
      refine ⟨c :: body, after, rfl, (closesOnce_cons c body).2 ⟨?_, hb⟩, ?_⟩
      · rintro ⟨rfl, head⟩
        exact hc ⟨rfl, by simp [head]⟩
      · simp only [List.length_cons]
        omega

namespace Shape

theorem ne_of_isBlank {c : Char} (h : isBlank c) : c ≠ '/' ∧ c ≠ '"' := by
  constructor <;> rintro rfl <;> simp [isBlank] at h

theorem ne_of_isDigit {c : Char} (h : c.isDigit) : c ≠ '/' ∧ c ≠ '"' ∧ isBlank c = false := by
  refine ⟨?_, ?_, Bool.eq_false_iff.2 fun hb => ?_⟩
  · rintro rfl; simp at h
  · rintro rfl; simp at h
  · simp only [isBlank, Bool.or_eq_true, decide_eq_true_eq] at hb
    rcases hb with ((rfl | rfl) | rfl) | rfl <;> simp at h

theorem ne_of_isWordStart {c : Char} (h : isWordStart c) :
    c ≠ '/' ∧ c ≠ '"' ∧ isBlank c = false ∧ c.isDigit = false := by
  refine ⟨?_, ?_, Bool.eq_false_iff.2 fun hb => ?_, Bool.eq_false_iff.2 fun hd => ?_⟩
  · rintro rfl; simp [isWordStart] at h
  · rintro rfl; simp [isWordStart] at h
  · simp only [isBlank, Bool.or_eq_true, decide_eq_true_eq] at hb
    rcases hb with ((rfl | rfl) | rfl) | rfl <;> simp [isWordStart] at h
  · have below : c ≤ '9' := ((isDigit_iff c).1 hd).2
    rcases (isWordStart_iff c).1 h with upper | lower | rfl
    · exact absurd (Char.le_trans upper.1 below) (by decide)
    · exact absurd (Char.le_trans lower.1 below) (by decide)
    · exact absurd below (by decide)

theorem munch_slash (rest : Text) : munch '/' rest = ofSlash rest := by simp [munch]

theorem munch_quote (rest : Text) : munch '"' rest = ofQuote rest := by simp [munch]

theorem munch_blank {c : Char} (h : isBlank c) (rest : Text) : munch c rest = (.blank, 0) := by
  simp [munch, ne_of_isBlank h, h]

theorem munch_digit {c : Char} (h : c.isDigit) (rest : Text) : munch c rest = ofDigit rest := by
  simp [munch, ne_of_isDigit h, h]

theorem munch_wordStart {c : Char} (h : isWordStart c) (rest : Text) :
    munch c rest = ofWordStart c rest := by
  simp [munch, ne_of_isWordStart h, h]

theorem munch_symbol {c : Char} {kind : Kind} (h : Kind.ofChar? c = some kind) (hc : c ≠ '/')
    (rest : Text) : munch c rest = ofSymbol kind rest := by
  simp [munch, hc, Kind.ne_of_ofChar? h, h]

theorem cut_ofSlash (rest : Text) :
    Cut (ofSlash rest).1 ('/' :: rest.take (ofSlash rest).2) (rest.drop (ofSlash rest).2) := by
  rw [ofSlash.eq_def]
  split
  next rest =>
    obtain ⟨body, after, rfl, inside, stop, run⟩ := exists_run (· ≠ '\n') rest
    rw [run]
    simp only [List.take_succ_cons, List.take_left, List.drop_succ_cons, List.drop_left]
    exact .lineComment (forall_ne_iff.1 inside) stop
  next rest =>
    cases h : closing? 1 rest with
    | none =>
      have never := (closing?_eq_none_iff 1 rest).1 h
      simpa using Cut.openComment never
    | some more =>
      obtain ⟨body, after, rfl, once, rfl⟩ := exists_of_closing? h
      have size : 1 + body.length + 2 = (body ++ ['*', '/']).length + 1 := by simp; omega
      have split : body ++ '*' :: '/' :: after = (body ++ ['*', '/']) ++ after := by simp
      simp only [size, split, List.take_succ_cons, List.take_left, List.drop_succ_cons,
        List.drop_left]
      exact .blockComment once
  next h₁ h₂ =>
    refine .symbol (by decide) ?_
    cases rest with
    | nil => rfl
    | cons d rest => simp_all [Kind.goesOn, Kind.withEqual?]

theorem cut_ofQuote (rest : Text) :
    Cut (ofQuote rest).1 ('"' :: rest.take (ofQuote rest).2) (rest.drop (ofQuote rest).2) := by
  obtain ⟨value, after, rfl, inside, stop, run⟩ := exists_run (· ≠ '"') rest
  have clean := forall_ne_iff.1 inside
  simp only [ofQuote, run]
  cases after with
  | nil => simpa using Cut.openString clean
  | cons d after =>
    obtain rfl : d = '"' := by simpa using stop
    have split : value ++ '"' :: after = (value ++ ['"']) ++ after := by simp
    have size : value.length + 1 = (value ++ ['"']).length := by simp
    rw [if_pos (by simp)]
    simp only [split, size, List.take_left, List.drop_left]
    exact .string clean

theorem cut_ofDigit {c : Char} (hc : c.isDigit) (rest : Text) :
    Cut (ofDigit rest).1 (c :: rest.take (ofDigit rest).2) (rest.drop (ofDigit rest).2) := by
  obtain ⟨more, after, rfl, digits, stop, run⟩ := exists_run Char.isDigit rest
  simp only [ofDigit, run, List.drop_left]
  rw [fraction.eq_def]
  split
  next d after =>
    split
    next hd =>
      obtain ⟨places, after, rfl, digits', stop', run'⟩ := exists_run Char.isDigit after
      have split : more ++ '.' :: d :: (places ++ after) =
          (more ++ '.' :: d :: places) ++ after := by simp
      have size : more.length + (places.length + 2) = (more ++ '.' :: d :: places).length := by simp
      rw [run', split, size, List.take_left, List.drop_left]
      exact .fractional hc digits hd digits' stop'
    next hd =>
      simp only [Nat.add_zero, List.take_left, List.drop_left]
      exact .whole hc digits stop ((fraction_eq_zero_iff _).2 (by simpa using hd))
  next h =>
    simp only [Nat.add_zero, List.take_left, List.drop_left]
    exact .whole hc digits stop
      ((fraction_eq_zero_iff after).2 fun d rest same => (h d rest same).elim)

theorem cut_ofWordStart {c : Char} (hc : isWordStart c) (rest : Text) :
    Cut (ofWordStart c rest).1 (c :: rest.take (ofWordStart c rest).2)
      (rest.drop (ofWordStart c rest).2) := by
  obtain ⟨more, after, rfl, parts, stop, run⟩ := exists_run isWordPart rest
  simp only [ofWordStart, run, List.take_left, List.drop_left]
  exact .word hc parts stop

theorem ofSymbol_equal {kind longer : Kind} (h : kind.withEqual? = some longer) (rest : Text) :
    ofSymbol kind ('=' :: rest) = (.plain longer, 1) := by simp [ofSymbol, h]

theorem ofSymbol_stop {kind : Kind} {rest : Text} (h : rest.startsWith kind.goesOn = false) :
    ofSymbol kind rest = (.plain kind, 0) := by
  rw [ofSymbol.eq_def]
  split
  next hk => simp [Kind.goesOn, hk] at h
  next => rfl

theorem ne_slash_of_ofChar? {c : Char} {kind : Kind} (h : Kind.ofChar? c = some kind)
    (hc : c ≠ '/') : kind ≠ .slash := by
  rintro rfl
  simpa [Kind.spelling?, hc.symm] using Kind.spelling_ofChar? h

theorem cut_ofSymbol {c : Char} {kind : Kind} (h : Kind.ofChar? c = some kind) (hc : c ≠ '/')
    (rest : Text) :
    Cut (ofSymbol kind rest).1 (c :: rest.take (ofSymbol kind rest).2)
      (rest.drop (ofSymbol kind rest).2) := by
  cases hs : rest.startsWith kind.goesOn with
  | false =>
    rw [ofSymbol_stop hs]
    exact .symbol h hs
  | true =>
    cases rest with
    | nil => simp at hs
    | cons d rest =>
      simp only [Text.startsWith_cons, Kind.goesOn, ne_slash_of_ofChar? h hc, decide_false,
        Bool.false_and, Bool.false_or, Bool.and_eq_true, decide_eq_true_eq] at hs
      obtain ⟨longer, hk⟩ := Option.isSome_iff_exists.1 hs.1
      rw [hs.2, ofSymbol_equal hk]
      exact .operator h hk

end Shape

theorem cut_munch (c : Char) (rest : Text) :
    Cut (Shape.munch c rest).1 (c :: rest.take (Shape.munch c rest).2)
      (rest.drop (Shape.munch c rest).2) := by
  unfold Shape.munch
  split
  next h => subst h; exact Shape.cut_ofSlash rest
  split
  next h => subst h; exact Shape.cut_ofQuote rest
  split
  next h => simpa using Cut.blank h
  split
  next h => exact Shape.cut_ofDigit h rest
  split
  next h => exact Shape.cut_ofWordStart h rest
  next slash quote blank digit word =>
    split
    next kind h => exact Shape.cut_ofSymbol h slash rest
    next h =>
      rw [Bool.not_eq_true] at blank digit word
      exact .stray slash quote blank digit word h

namespace Cut

theorem munch_symbol {c : Char} {kind : Kind} {after : Text} (h : Kind.ofChar? c = some kind)
    (stop : after.startsWith kind.goesOn = false) : Shape.munch c after = (.plain kind, 0) := by
  by_cases hc : c = '/'
  · subst hc
    cases Kind.ofChar?_slash.symm.trans h
    rw [Shape.munch_slash, Shape.ofSlash.eq_def]
    split
    · simp [Kind.goesOn] at stop
    · simp [Kind.goesOn] at stop
    · rfl
  · rw [Shape.munch_symbol h hc, Shape.ofSymbol_stop stop]

theorem munch_operator {c : Char} {kind longer : Kind} (h : Kind.ofChar? c = some kind)
    (hk : kind.withEqual? = some longer) (after : Text) :
    Shape.munch c ('=' :: after) = (.plain longer, 1) := by
  have hc : c ≠ '/' := by
    intro slash
    subst slash
    cases Kind.ofChar?_slash.symm.trans h
    simp [Kind.withEqual?] at hk
  rw [Shape.munch_symbol h hc, Shape.ofSymbol_equal hk]

theorem munch_number {c : Char} (hc : c.isDigit) {more : Text} (digits : ∀ d ∈ more, d.isDigit)
    {rest : Text} (stop : rest.startsWith Char.isDigit = false) :
    Shape.munch c (more ++ rest) = (.number, more.length + fraction rest) := by
  rw [Shape.munch_digit hc, Shape.ofDigit, takeWhile_eq_of_stop digits stop]
  simp

theorem munch_string {value : Text} (clean : '"' ∉ value) (after : Text) :
    Shape.munch '"' (value ++ '"' :: after) = (.string, value.length + 1) := by
  rw [Shape.munch_quote, Shape.ofQuote, takeWhile_ne_append clean]
  simp

theorem munch_openString {value : Text} (clean : '"' ∉ value) :
    Shape.munch '"' value = (.openString, value.length) := by
  have run := takeWhile_eq_of_stop (forall_ne_iff.2 clean) (Text.startsWith_nil _)
  rw [List.append_nil] at run
  rw [Shape.munch_quote, Shape.ofQuote, run]
  simp

theorem munch_lineComment {body after : Text} (clean : '\n' ∉ body)
    (stop : after.startsWith (· ≠ '\n') = false) :
    Shape.munch '/' ('/' :: (body ++ after)) = (.lineComment, body.length + 1) := by
  rw [Shape.munch_slash, Shape.ofSlash, takeWhile_eq_of_stop (forall_ne_iff.2 clean) stop]

theorem munch_blockComment {body : Text} (once : ClosesOnce body) (after : Text) :
    Shape.munch '/' ('*' :: (body ++ '*' :: '/' :: after)) = (.blockComment, body.length + 3) := by
  rw [Shape.munch_slash, Shape.ofSlash, closing?_of_closesOnce once]
  simp only [Prod.mk.injEq, true_and]
  omega

theorem munch_openComment {body : Text} (never : NeverCloses body) :
    Shape.munch '/' ('*' :: body) = (.openComment, body.length + 1) := by
  rw [Shape.munch_slash, Shape.ofSlash, (closing?_eq_none_iff 1 body).2 never]

theorem munch_eq {shape : Shape} {c : Char} {more after : Text}
    (h : Cut shape (c :: more) after) :
    Shape.munch c (more ++ after) = (shape, more.length) := by
  cases h with
  | symbol hk stop => exact munch_symbol hk stop
  | operator hk hw => exact munch_operator hk hw after
  | word hc parts stop =>
    rw [Shape.munch_wordStart hc, Shape.ofWordStart, takeWhile_eq_of_stop parts stop]
  | whole hc digits stop hf => rw [munch_number hc digits stop, hf, Nat.add_zero]
  | fractional hc digits hd digits' stop =>
    have point (tail : Text) : Text.startsWith Char.isDigit ('.' :: tail) = false := rfl
    rw [List.append_assoc, List.cons_append, List.cons_append, munch_number hc digits (point _)]
    simp [fraction, hd, takeWhile_eq_of_stop digits' stop]
  | string clean => simpa using munch_string clean after
  | blank hc => rw [Shape.munch_blank hc]; rfl
  | lineComment clean stop => exact munch_lineComment clean stop
  | blockComment once => simpa using munch_blockComment once after
  | openString clean => simpa using munch_openString clean
  | openComment never => simpa using munch_openComment never
  | stray slash quote blank digit word none =>
    simp [Shape.munch, slash, quote, blank, digit, word, none]

end Cut

end LoxLexer
