import LoxLexer.Lexical.Shape

namespace LoxLexer.Kind

inductive Spelled : Kind → Text → Prop
  | symbol : ofChar? c = some kind → Spelled kind [c]
  | operator : ofChar? c = some short → short.withEqual? = some kind → Spelled kind [c, '=']
  | keyword : isWordStart c → (∀ d ∈ more, isWordPart d) → ofWord (c :: more) = kind →
      Spelled kind (c :: more)

variable {kind : Kind} {text : Text} {c : Char}

theorem ofChar?_slash : ofChar? '/' = some .slash := rfl

theorem spelling_of_mem_keywords {entry : Text × Kind} (h : entry ∈ keywords) :
    entry.2.spelling? = some entry.1 := by
  revert entry
  decide

theorem spelling_ofWord (h : ofWord text ≠ .identifier) : (ofWord text).spelling? = some text := by
  rw [ofWord] at h ⊢
  cases found : keywords.lookup text with
  | none => simp [found] at h
  | some kind =>
    obtain ⟨before, after, split, -⟩ := List.lookup_eq_some_iff.1 found
    have listed : (text, kind) ∈ keywords := by simp [split]
    exact spelling_of_mem_keywords listed

theorem spelling_ofChar? (h : ofChar? c = some kind) : kind.spelling? = some [c] := by
  revert h
  rw [ofChar?.eq_def]
  split <;> rintro ⟨⟩ <;> rfl

theorem ne_of_ofChar? (h : ofChar? c = some kind) :
    c ≠ '"' ∧ isBlank c = false ∧ c.isDigit = false ∧ isWordStart c = false := by
  revert h
  rw [ofChar?.eq_def]
  split <;> rintro ⟨⟩ <;> decide

theorem spelled (h : kind.spelling? = some text) : Spelled kind text := by
  cases kind with
  | bangEqual | equalEqual | greaterEqual | lessEqual =>
    cases h
    exact .operator rfl rfl
  | andWord | classWord | elseWord | falseWord | funWord | forWord | ifWord | nilWord | orWord
  | printWord | returnWord | superWord | thisWord | trueWord | varWord | whileWord =>
    cases h
    exact .keyword rfl (List.all_eq_true.1 rfl) rfl
  | identifier | string | number | eof => cases h
  | _ =>
    cases h
    exact .symbol rfl

theorem ofWord_eq_identifier_iff (hc : isWordStart c) (more : Text) :
    ofWord (c :: more) = .identifier ↔ ∀ kind : Kind, kind.spelling? ≠ some (c :: more) := by
  constructor
  · intro identifier kind h
    cases spelled h with
    | symbol char => simp [ne_of_ofChar? char] at hc
    | operator char _ => simp [ne_of_ofChar? char] at hc
    | keyword _ _ word =>
      rw [← word, identifier] at h
      simp [spelling?] at h
  · intro h
    exact Decidable.byContradiction fun word => h _ (spelling_ofWord word)

end LoxLexer.Kind
