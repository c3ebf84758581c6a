import LoxLexer.Proofs.Run

namespace LoxLexer

/-- `other` goes on as `after` does, until it comes to a blank or to its end. -/
inductive UpToBlank : Text → Text → Prop
  | nil : UpToBlank after []
  | blank : isBlank c → UpToBlank after (c :: rest)
  | cons : UpToBlank after other → UpToBlank (c :: after) (c :: other)

variable {shape : Shape} {text after other rest a b gap : Text} {line : Nat} {ps : List Piece}
  {p : Char → Bool} {c : Char}

namespace UpToBlank

theorem append_left (text : Text) (h : UpToBlank after other) :
    UpToBlank (text ++ after) (text ++ other) := by
  induction text with
  | nil => exact h
  | cons c text ih => exact .cons ih

theorem append (hc : isBlank c) (after rest : Text) : UpToBlank after (after ++ c :: rest) := by
  simpa using append_left after (UpToBlank.blank hc : UpToBlank [] (c :: rest))

theorem startsWith (h : UpToBlank after other) (stop : after.startsWith p = false)
    (hp : ∀ c, isBlank c → p c = false) : other.startsWith p = false := by
  cases h with
  | nil => rfl
  | blank hc => exact hp _ hc
  | cons _ => exact stop

theorem fraction_eq_zero (h : UpToBlank after other) (none : fraction after = 0) :
    fraction other = 0 := by
  rw [fraction_eq_zero_iff] at none ⊢
  rintro d rest rfl
  -- A point is no blank, so the character behind it is a blank or the one that stood there.
  cases h with
  | blank hc => simp [isBlank] at hc
  | cons h =>
    cases h with
    | blank hd => exact Bool.eq_false_iff.2 fun digit => by simp [Shape.ne_of_isDigit digit] at hd
    | cons _ => exact none d _ rfl

end UpToBlank

theorem not_isWordPart_of_isBlank (hc : isBlank c) : isWordPart c = false := by
  rcases (isBlank_iff c).1 hc with rfl | rfl | rfl | rfl <;> decide

theorem not_isDigit_of_isBlank (hc : isBlank c) : c.isDigit = false := by
  rcases (isBlank_iff c).1 hc with rfl | rfl | rfl | rfl <;> decide

theorem Kind.not_goesOn_of_isBlank (kind : Kind) (hc : isBlank c) : kind.goesOn c = false := by
  rcases (isBlank_iff c).1 hc with rfl | rfl | rfl | rfl <;> simp [goesOn]

def Shape.takesBlanks : Shape → Bool
  | .lineComment | .openString | .openComment => true
  | _ => false

theorem Cut.upToBlank (h : Cut shape text after) (ends : shape.takesBlanks = false)
    (goes : UpToBlank after other) : Cut shape text other := by
  cases h with
  | symbol hk stop => exact .symbol hk (goes.startsWith stop fun _ => Kind.not_goesOn_of_isBlank _)
  | operator hk hw => exact .operator hk hw
  | word hc parts stop =>
    exact .word hc parts (goes.startsWith stop fun _ => not_isWordPart_of_isBlank)
  | whole hc digits stop hf =>
    exact .whole hc digits (goes.startsWith stop fun _ => not_isDigit_of_isBlank)
      (goes.fraction_eq_zero hf)
  | fractional hc digits hd digits' stop =>
    exact .fractional hc digits hd digits' (goes.startsWith stop fun _ => not_isDigit_of_isBlank)
  | string clean => exact .string clean
  | blank hc => exact .blank hc
  | lineComment _ _ => simp [Shape.takesBlanks] at ends
  | blockComment once => exact .blockComment once
  | openString _ => simp [Shape.takesBlanks] at ends
  | openComment _ => simp [Shape.takesBlanks] at ends
  | stray slash quote blank digit word none => exact .stray slash quote blank digit word none

def Piece.tells (p : Piece) : Bool := p.shape ≠ .blank ∧ p.shape ≠ .lineComment

def telling (ps : List Piece) : List Piece := ps.filter Piece.tells

@[simp] theorem telling_nil : telling [] = [] := rfl

@[simp] theorem telling_append (ps qs : List Piece) :
    telling (ps ++ qs) = telling ps ++ telling qs := List.filter_append ..

theorem telling_cons (p : Piece) (ps : List Piece) :
    telling (p :: ps) = telling [p] ++ telling ps := telling_append [p] ps

theorem Piece.shape_of_tells_eq_false {p : Piece} (h : p.tells = false) :
    p.shape = .blank ∨ p.shape = .lineComment := by
  simpa [tells, Decidable.or_iff_not_imp_left] using h

theorem flatMap_telling {α : Type} {f : Piece → List α}
    (quiet : ∀ p, p.shape = .blank ∨ p.shape = .lineComment → f p = []) (ps : List Piece) :
    (telling ps).flatMap f = ps.flatMap f := by
  induction ps with
  | nil => rfl
  | cons p ps ih =>
    rw [telling_cons, List.flatMap_append, ih, List.flatMap_cons]
    congr 1
    cases h : p.tells with
    | true => simp [telling, h]
    | false => simp [telling, h, quiet p (p.shape_of_tells_eq_false h)]

theorem filterMap_telling {α : Type} {f : Piece → Option α}
    (quiet : ∀ p, p.shape = .blank ∨ p.shape = .lineComment → f p = none) (ps : List Piece) :
    (telling ps).filterMap f = ps.filterMap f := by
  rw [telling, List.filterMap_filter]
  congr 1
  funext p
  cases h : p.tells with
  | true => rfl
  | false => exact (quiet p (p.shape_of_tells_eq_false h)).symm

theorem filterMap_token?_telling (ps : List Piece) :
    (telling ps).filterMap Piece.token? = ps.filterMap Piece.token? := by
  apply filterMap_telling
  rintro ⟨shape, text, line⟩ (rfl | rfl) <;> rfl

theorem filterMap_item?_telling (ps : List Piece) :
    (telling ps).filterMap Piece.item? = ps.filterMap Piece.item? := by
  apply filterMap_telling
  rintro ⟨shape, text, line⟩ (rfl | rfl) <;> rfl

theorem flatMap_warnings_telling (ps : List Piece) :
    (telling ps).flatMap Piece.warnings = ps.flatMap Piece.warnings := by
  apply flatMap_telling
  rintro ⟨shape, text, line⟩ (rfl | rfl) <;> rfl

theorem flatMap_diagnostics_telling (ps : List Piece) :
    (telling ps).flatMap Piece.diagnostics = ps.flatMap Piece.diagnostics := by
  apply flatMap_telling
  rintro ⟨shape, text, line⟩ (rfl | rfl) <;> rfl

theorem scan_eq_telling (source : Text) : scan source =
    ⟨(telling (pieces 1 source)).filterMap Piece.token? ++ [.endOfInput (1 + source.lineFeeds)],
      (telling (pieces 1 source)).flatMap Piece.diagnostics⟩ := by
  rw [filterMap_token?_telling, flatMap_diagnostics_telling]
  rfl

theorem telling_blanks (blank : ∀ c ∈ gap, isBlank c) (line : Nat) (rest : Text) :
    telling (pieces line (gap ++ rest)) = telling (pieces (line + gap.lineFeeds) rest) := by
  induction gap generalizing line with
  | nil => rfl
  | cons c gap ih =>
    obtain ⟨hc, blank⟩ := List.forall_mem_cons.1 blank
    have cut : Cut .blank [c] (gap ++ rest) := .blank hc
    have first : telling (pieces line (c :: (gap ++ rest))) =
        telling (pieces (line + Text.lineFeeds [c]) (gap ++ rest)) := by
      rw [← List.singleton_append, cut.pieces_eq]
      rfl
    rw [List.cons_append, first, ih blank, Nat.add_assoc, ← Text.lineFeeds_append,
      List.singleton_append]

end LoxLexer
