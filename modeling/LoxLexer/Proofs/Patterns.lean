import LoxLexer.Proofs.Grammar
import LoxLexer.Proofs.Spelling

namespace LoxLexer

variable {sense : Sense} {kind : Kind} {literal : Option Literal} {text after more : Text}
  {c : Char}

theorem isDigit_iff (c : Char) : c.isDigit ↔ Digit c := by
  simp [Char.isDigit, Digit, Char.le_def]

theorem isAlpha_iff (c : Char) : c.isAlpha ↔ ('A' ≤ c ∧ c ≤ 'Z') ∨ ('a' ≤ c ∧ c ≤ 'z') := by
  change (decide ('A' ≤ c ∧ c ≤ 'Z') || (decide ('a' ≤ c) && decide (c ≤ 'z'))) = true ↔ _
  simp

theorem isWordStart_iff (c : Char) : isWordStart c ↔ Letter c := by
  simp [isWordStart, isAlpha_iff, Letter, or_assoc]

theorem isWordPart_iff (c : Char) : isWordPart c ↔ Letter c ∨ Digit c := by
  rw [isWordPart, Bool.or_eq_true, isWordStart_iff, isDigit_iff]

theorem isBlank_iff (c : Char) : isBlank c ↔ c = ' ' ∨ c = '\r' ∨ c = '\t' ∨ c = '\n' := by
  simp [isBlank, or_assoc]

theorem isWord_cons : IsWord (c :: more) ↔ isWordStart c ∧ ∀ d ∈ more, isWordPart d := by
  simp only [IsWord, isWordStart_iff, isWordPart_iff]

theorem isDigits_cons : IsDigits (c :: more) ↔ c.isDigit ∧ ∀ d ∈ more, d.isDigit := by
  simp only [IsDigits, ne_eq, List.cons_ne_nil, not_false_eq_true, true_and, List.forall_mem_cons,
    isDigit_iff]

theorem IsWord.exists_cons (h : IsWord text) :
    ∃ c more, text = c :: more ∧ isWordStart c ∧ ∀ d ∈ more, isWordPart d := by
  cases text with
  | nil => exact h.elim
  | cons c more => exact ⟨c, more, rfl, isWord_cons.1 h⟩

theorem IsDigits.exists_cons (h : IsDigits text) :
    ∃ c more, text = c :: more ∧ c.isDigit ∧ ∀ d ∈ more, d.isDigit := by
  cases text with
  | nil => exact absurd rfl h.1
  | cons c more => exact ⟨c, more, rfl, isDigits_cons.1 h⟩

theorem IsNumeral.exists_cons (h : IsNumeral text) : ∃ c more, text = c :: more ∧ c.isDigit := by
  cases h with
  | whole digits =>
    obtain ⟨c, more, rfl, hc, -⟩ := digits.exists_cons
    exact ⟨c, more, rfl, hc⟩
  | fractional digits _ =>
    obtain ⟨c, more, rfl, hc, -⟩ := digits.exists_cons
    exact ⟨c, _, rfl, hc⟩

namespace WellFormed

theorem of_operator {longer : Kind} (h : Kind.ofChar? c = some kind)
    (hk : kind.withEqual? = some longer) : WellFormed longer [c, '='] none := by
  apply spelled
  rw [Kind.spelling_withEqual? hk, Kind.spelling_ofChar? h]
  rfl

theorem of_word (hc : isWordStart c) (parts : ∀ d ∈ more, isWordPart d) :
    WellFormed (.ofWord (c :: more)) (c :: more) none := by
  by_cases h : Kind.ofWord (c :: more) = .identifier
  · rw [h]
    exact .identifier (isWord_cons.2 ⟨hc, parts⟩) ((Kind.ofWord_eq_identifier_iff hc more).1 h)
  · exact .spelled (Kind.spelling_ofWord h)

theorem kind_ne_eof (h : WellFormed kind text literal) : kind ≠ .eof := by
  intro eof
  cases h with
  | spelled spelled => simp [eof, Kind.spelling?] at spelled
  | identifier => simp at eof
  | number => simp at eof
  | string => simp at eof

theorem string_inv (h : WellFormed .string text literal) :
    ∃ value, text = '"' :: (value ++ ['"']) ∧ literal = some (.string value) ∧ '"' ∉ value := by
  cases h with
  | spelled spelled => simp [Kind.spelling?] at spelled
  | string clean => exact ⟨_, rfl, rfl, clean⟩

end WellFormed

def Visible (c : Char) : Prop := '!' ≤ c ∧ c ≤ '~'

instance : DecidablePred Visible := fun _ => inferInstanceAs (Decidable (_ ∧ _))

theorem Visible.not_isBlank (h : Visible c) : isBlank c = false := by
  apply Bool.eq_false_iff.2
  intro blank
  rcases (isBlank_iff c).1 blank with rfl | rfl | rfl | rfl <;> exact absurd h (by decide)

theorem Letter.visible (h : Letter c) : Visible c := by
  rcases h with ⟨low, high⟩ | ⟨low, high⟩ | rfl
  · exact ⟨Char.le_trans (by decide) low, Char.le_trans high (by decide)⟩
  · exact ⟨Char.le_trans (by decide) low, Char.le_trans high (by decide)⟩
  · decide

theorem Digit.visible (h : Digit c) : Visible c :=
  ⟨Char.le_trans (by decide) h.1, Char.le_trans h.2 (by decide)⟩

theorem visible_of_isDigit (h : c.isDigit) : Visible c := ((isDigit_iff c).1 h).visible

theorem visible_of_isWordPart (h : isWordPart c) : Visible c :=
  ((isWordPart_iff c).1 h).elim Letter.visible Digit.visible

theorem Kind.visible_of_spelling? (h : kind.spelling? = some text) : ∀ c ∈ text, Visible c := by
  have all : kind.spelling?.all (·.all (Visible ·)) := by cases kind <;> decide
  rw [h] at all
  simpa using all

theorem WellFormed.visible (h : WellFormed kind text literal) (hk : kind ≠ .string) :
    ∀ c ∈ text, Visible c := by
  cases h with
  | spelled spelled => exact Kind.visible_of_spelling? spelled
  | identifier word _ =>
    obtain ⟨c, more, rfl, start, parts⟩ := word.exists_cons
    refine List.forall_mem_cons.2 ⟨((isWordStart_iff c).1 start).visible, ?_⟩
    intro d hd
    exact visible_of_isWordPart (parts d hd)
  | number numeral =>
    cases numeral with
    | whole digits => exact fun d hd => (digits.2 d hd).visible
    | fractional digits digits' =>
      refine List.forall_mem_append.2 ⟨fun d hd => (digits.2 d hd).visible, ?_⟩
      refine List.forall_mem_cons.2 ⟨by decide, fun d hd => (digits'.2 d hd).visible⟩
  | string _ => exact absurd rfl hk

theorem WellFormed.lineFeed_not_mem (h : WellFormed kind text literal) (hk : kind ≠ .string) :
    '\n' ∉ text := by
  intro hm
  exact absurd (h.visible hk _ hm) (by decide)

theorem Pattern.exists_cons (h : Pattern sense text after) : ∃ c more, text = c :: more ∧
    (c = '"' ∨ isBlank c ∨ c.isDigit ∨ isWordStart c ∨ Kind.ofChar? c ≠ none) := by
  cases h with
  | token h =>
    cases h with
    | spelled spelled =>
      cases Kind.spelled spelled with
      | symbol char => exact ⟨_, _, rfl, by simp [char]⟩
      | operator char _ => exact ⟨_, _, rfl, by simp [char]⟩
      | keyword start _ _ => exact ⟨_, _, rfl, by simp [start]⟩
    | identifier word _ =>
      obtain ⟨c, more, rfl, start, -⟩ := word.exists_cons
      exact ⟨c, more, rfl, by simp [start]⟩
    | number numeral =>
      obtain ⟨c, more, rfl, hc⟩ := numeral.exists_cons
      exact ⟨c, more, rfl, by simp [hc]⟩
    | string _ => exact ⟨'"', _, rfl, by simp⟩
  | trivia h =>
    cases h with
    | blank hc => exact ⟨_, [], rfl, .inr (.inl ((isBlank_iff _).2 hc))⟩
    | lineComment _ => exact ⟨'/', _, rfl, by decide⟩
    | blockComment _ => exact ⟨'/', _, rfl, by decide⟩
  | unfinished h =>
    cases h with
    | string _ => exact ⟨'"', _, rfl, by simp⟩
    | comment _ => exact ⟨'/', _, rfl, by decide⟩

theorem BeginsNothing.ne_lineFeed (h : BeginsNothing c) : c ≠ '\n' := by
  intro lineFeed
  exact h .trivia [] [] (.trivia (.blank (by simp [lineFeed])))

namespace Matches

theorem ne_nil (h : Matches sense text after) : text ≠ [] := by
  cases h with
  | pattern h =>
    obtain ⟨c, more, rfl, -⟩ := h.exists_cons
    exact List.cons_ne_nil c more
  | stray _ => exact List.cons_ne_nil _ _

theorem stray_inv (h : Matches (.fault (.unexpectedCharacter c)) text after) :
    text = [c] ∧ BeginsNothing c := by
  cases h with
  | pattern h => cases h with | unfinished h => cases h
  | stray nothing => exact ⟨rfl, nothing⟩

theorem after_eq_nil {cause : LexicalFault} (h : Matches (.fault cause) text after)
    (hc : cause = .unterminatedString ∨ cause = .unterminatedComment) : after = [] := by
  cases h with
  | pattern h => cases h with | unfinished _ => rfl
  | stray _ => simp at hc

end Matches

end LoxLexer
