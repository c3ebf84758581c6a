import LoxLexer.Proofs.Run

namespace LoxLexer

def Shape.sense (text : Text) : Shape → Sense
  | .plain kind => .token kind none
  | .number => .token .number (some (.number (.ofDecimal (.ofNumeral text))))
  | .string => .token .string (some (.string text.tail.dropLast))
  | .blank | .lineComment | .blockComment => .trivia
  | .openString => .fault .unterminatedString
  | .openComment => .fault .unterminatedComment
  | .stray c => .fault (.unexpectedCharacter c)

theorem Piece.item?_eq (p : Piece) : p.item? = (p.shape.sense p.text).item? p.text p.lastLine := by
  obtain ⟨shape, text, line⟩ := p
  cases shape <;> rfl

variable {sense : Sense} {shape : Shape} {kind : Kind} {text after more rest : Text} {c : Char}

theorem Cut.fits (h : Cut shape text after) : Matches (shape.sense text) text after := by
  cases h with
  | symbol hk _ => exact .pattern (.token (.spelled (Kind.spelling_ofChar? hk)))
  | operator hk hw => exact .pattern (.token (.of_operator hk hw))
  | word hc parts _ => exact .pattern (.token (.of_word hc parts))
  | whole hc digits _ _ => exact .pattern (.token (.number (.whole (isDigits_cons.2 ⟨hc, digits⟩))))
  | fractional hc digits hd digits' _ =>
    exact .pattern (.token (.number
      (.fractional (isDigits_cons.2 ⟨hc, digits⟩) (isDigits_cons.2 ⟨hd, digits'⟩))))
  | string clean => simpa [Shape.sense] using Matches.pattern (.token (.string clean))
  | blank hc => exact .pattern (.trivia (.blank ((isBlank_iff _).1 hc)))
  | lineComment clean _ => exact .pattern (.trivia (.lineComment clean))
  | blockComment once => exact .pattern (.trivia (.blockComment once))
  | openString clean => exact .pattern (.unfinished (.string clean))
  | openComment never => exact .pattern (.unfinished (.comment never))
  | stray slash quote blank digit word none =>
    apply Matches.stray
    intro sense more after h
    obtain ⟨c, more, same, begins⟩ := h.exists_cons
    cases same
    simp_all

/-- The cut goes beyond `c :: more`, or as far and in the same sense. -/
def Outdone (sense : Sense) (c : Char) (more rest : Text) : Prop :=
  let cut := Shape.munch c (more ++ rest)
  more.length < cut.2 ∨ more.length = cut.2 ∧ cut.1.sense (c :: more) = sense

theorem Cut.outdone (h : Cut shape (c :: more) rest) :
    Outdone (shape.sense (c :: more)) c more rest := by
  rw [Outdone, h.munch_eq]
  exact .inr ⟨rfl, rfl⟩

theorem Cut.symbol_inv (h : Cut shape (c :: more) after) (hk : Kind.ofChar? c = some kind)
    (alone : more = []) : shape = .plain kind := by
  obtain ⟨quote, blank, digit, word⟩ := Kind.ne_of_ofChar? hk
  cases h with
  | symbol hk' _ => rw [Option.some.inj (hk'.symm.trans hk)]
  | operator _ _ => simp at alone
  | word hc _ _ => simp [hc] at word
  | whole hc _ _ _ => simp [hc] at digit
  | fractional _ _ _ _ _ => simp at alone
  | string _ => exact absurd rfl quote
  | blank hc => simp [hc] at blank
  | lineComment _ _ => simp at alone
  | blockComment _ => simp at alone
  | openString _ => exact absurd rfl quote
  | openComment _ => simp at alone
  | stray _ _ _ _ _ none => simp [none] at hk

theorem outdone_symbol (hk : Kind.ofChar? c = some kind) :
    Outdone (.token kind none) c [] rest := by
  have cut := cut_munch c rest
  cases Nat.eq_zero_or_pos (Shape.munch c rest).2 with
  | inl size =>
    rw [size] at cut
    refine .inr ⟨size.symm, ?_⟩
    rw [List.nil_append, cut.symbol_inv hk rfl]
    rfl
  | inr size => exact .inl size

theorem outdone_word (hc : isWordStart c) (parts : ∀ d ∈ more, isWordPart d) :
    Outdone (.token (.ofWord (c :: more)) none) c more rest := by
  rw [Outdone, Shape.munch_wordStart hc, Shape.ofWordStart, List.takeWhile_append_of_pos parts]
  cases rest.takeWhile isWordPart with
  | nil => exact .inr (by simp [Shape.sense])
  | cons d run => exact .inl (by simp)

theorem outdone_number {size : Nat} (h : Shape.munch c (more ++ rest) = (.number, size))
    (fits : more.length ≤ size) :
    Outdone (Shape.number.sense (c :: more)) c more rest := by
  rw [Outdone, h]
  exact (Nat.lt_or_eq_of_le fits).imp_right fun same => ⟨same, rfl⟩

theorem IsNumeral.outdone (h : IsNumeral (c :: more)) :
    Outdone (Shape.number.sense (c :: more)) c more rest := by
  generalize same : c :: more = text at h
  cases h with
  | whole digits =>
    subst same
    obtain ⟨hc, digits⟩ := isDigits_cons.1 digits
    refine outdone_number (Shape.munch_digit hc _) ?_
    rw [List.takeWhile_append_of_pos digits, List.length_append]
    omega
  | fractional digits digits' =>
    obtain ⟨d, whole, rfl, hd, front⟩ := digits.exists_cons
    obtain ⟨e, places, rfl, he, back⟩ := digits'.exists_cons
    obtain ⟨rfl, rfl⟩ := List.cons.inj same
    have point (tail : Text) : Text.startsWith Char.isDigit ('.' :: tail) = false := rfl
    have munch := Cut.munch_number hd front (point (e :: (places ++ rest)))
    rw [← List.cons_append, ← List.cons_append, ← List.append_assoc] at munch
    refine outdone_number munch ?_
    rw [List.cons_append, List.cons_append, fraction, if_pos he,
      List.takeWhile_append_of_pos back]
    simp only [List.append_eq, List.length_append, List.length_cons]
    omega

theorem outdone_lineComment (clean : '\n' ∉ text) : Outdone .trivia '/' ('/' :: text) rest := by
  obtain ⟨body, after, rfl, inside, stop, -⟩ := exists_run (· ≠ '\n') rest
  have clean' : '\n' ∉ text ++ body := by
    rw [List.mem_append, not_or]
    exact ⟨clean, forall_ne_iff.1 inside⟩
  have munch := Cut.munch_lineComment clean' stop
  rw [List.append_assoc] at munch
  rw [Outdone, List.cons_append, munch]
  cases body with
  | nil => exact .inr (by simp [Shape.sense])
  | cons d body => exact .inl (by simp)

theorem outdone_string {value : Text} (clean : '"' ∉ value) :
    Outdone (.token .string (some (.string value))) '"' (value ++ ['"']) rest := by
  have cut : Cut .string ('"' :: (value ++ ['"'])) rest := .string clean
  simpa [Shape.sense] using cut.outdone

theorem WellFormed.outdone {literal : Option Literal} (h : WellFormed kind (c :: more) literal) :
    Outdone (.token kind literal) c more rest := by
  cases h with
  | spelled spelled =>
    cases Kind.spelled spelled with
    | symbol char => exact outdone_symbol char
    | operator char hw => exact Cut.outdone (.operator char hw)
    | keyword start parts word => exact word ▸ outdone_word start parts
  | identifier word other =>
    obtain ⟨start, parts⟩ := isWord_cons.1 word
    rw [← (Kind.ofWord_eq_identifier_iff start more).2 other]
    exact outdone_word start parts
  | number numeral => exact numeral.outdone
  | string clean => exact outdone_string clean

theorem Pattern.outdone (h : Pattern sense (c :: more) rest) : Outdone sense c more rest := by
  cases h with
  | token h => exact h.outdone
  | trivia h =>
    cases h with
    | blank hc => exact Cut.outdone (.blank ((isBlank_iff _).2 hc))
    | lineComment clean => exact outdone_lineComment clean
    | blockComment once => exact Cut.outdone (.blockComment once)
  | unfinished h =>
    cases h with
    | string clean => exact Cut.outdone (.openString clean)
    | comment never => exact Cut.outdone (.openComment never)

theorem BeginsNothing.cut (h : BeginsNothing c) : Cut (.stray c) [c] after := by
  have token {kind : Kind} {literal : Option Literal} : ¬WellFormed kind [c] literal :=
    fun wf => h _ [] [] (.token wf)
  -- Each rule that a character can select has a pattern that the character begins.
  apply Cut.stray
  · intro slash
    exact token (.spelled (show Kind.spelling? .slash = some [c] from slash ▸ rfl))
  · intro quote
    subst quote
    exact h _ [] [] (.unfinished (.string List.not_mem_nil))
  · apply Bool.eq_false_iff.2
    intro hc
    exact h _ [] [] (.trivia (.blank ((isBlank_iff c).1 hc)))
  · apply Bool.eq_false_iff.2
    intro hc
    exact token (.number (.whole (isDigits_cons.2 ⟨hc, by simp⟩)))
  · apply Bool.eq_false_iff.2
    intro hc
    exact token (.of_word hc (by simp))
  · cases hk : Kind.ofChar? c with
    | none => rfl
    | some kind => exact (token (.spelled (Kind.spelling_ofChar? hk))).elim

theorem Matches.outdone (h : Matches sense (c :: more) rest) : Outdone sense c more rest := by
  cases h with
  | pattern h => exact h.outdone
  | stray nothing => exact nothing.cut.outdone

theorem Cut.longestMatch (h : Cut shape text after) :
    LongestMatch (shape.sense text) text after := by
  refine ⟨h.fits, ?_⟩
  intro other short rest hm same
  obtain ⟨c, more, rfl⟩ := List.exists_cons_of_ne_nil h.ne_nil
  obtain ⟨d, short, rfl⟩ := List.exists_cons_of_ne_nil hm.ne_nil
  simp only [List.cons_append, List.cons.injEq] at same
  obtain ⟨rfl, same⟩ := same
  have outdone := hm.outdone
  rw [Outdone, same, h.munch_eq] at outdone
  cases outdone with
  | inl longer => exact .inl (Nat.succ_lt_succ longer)
  | inr also =>
    obtain ⟨rfl, -⟩ := List.append_inj same also.1
    exact .inr ⟨rfl, also.2.symm⟩

theorem LongestMatch.unique {sense' : Sense} {text' after' : Text}
    (h : LongestMatch sense text after) (h' : LongestMatch sense' text' after')
    (same : text ++ after = text' ++ after') : text = text' := by
  rcases h.outdone _ _ _ h'.fits same.symm with shorter | ⟨same, -⟩
  · rcases h'.outdone _ _ _ h.fits same with shorter' | ⟨same, -⟩
    · exact absurd shorter (Nat.lt_asymm shorter')
    · exact same
  · exact same.symm

/-- Wherever scanning stands with some of the source ahead, the longest match is taken from what is
ahead, and handed out as what its pattern says it is. -/
theorem longestMatch_at_boundary {source : Text} {done ahead : List Piece}
    (reached : pieces 1 source = done ++ ahead) (more : ahead.flatMap Piece.text ≠ []) :
    done.flatMap Piece.text ++ ahead.flatMap Piece.text = source ∧
      ∃ p later sense, ahead = p :: later ∧
        LongestMatch sense p.text (later.flatMap Piece.text) ∧
        p.item? = sense.item? p.text p.lastLine := by
  have run := cuts_pieces 1 source
  rw [reached] at run
  refine ⟨by rw [← List.flatMap_append, run.flatMap_text], ?_⟩
  cases ahead with
  | nil => exact absurd rfl more
  | cons p later => exact ⟨p, later, _, rfl, run.cut.longestMatch, p.item?_eq⟩

theorem longestMatch_behind_comment :
    let done : List Piece := [⟨.blockComment, ['/', '*', '/', '*', '/'], 1⟩]
    let ahead : List Piece := [⟨.number, ['1', '.', '5'], 1⟩, ⟨.plain .dot, ['.'], 1⟩]
    let source : Text := ['/', '*', '/', '*', '/', '1', '.', '5', '.']
    pieces 1 source = done ++ ahead ∧ ahead.flatMap Piece.text ≠ [] ∧
      done.flatMap Piece.text ++ ahead.flatMap Piece.text = source ∧
        ∃ p later sense, ahead = p :: later ∧
          LongestMatch sense p.text (later.flatMap Piece.text) ∧
          p.item? = sense.item? p.text p.lastLine :=
  ⟨by decide, by decide, longestMatch_at_boundary (by decide) (by decide)⟩

end LoxLexer
