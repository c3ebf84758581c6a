import LoxLexer.Proofs.Conversation
import LoxLexer.Proofs.Printing

namespace LoxLexer

def Kind.ofName? (name : Text) : Option Kind := Kind.all.find? (·.name.toList = name)

def Kind.readLexeme (kind : Kind) (text : Text) : Text :=
  if kind = .string then '"' :: ((text.drop 1).takeWhile (· ≠ '"') ++ ['"'])
  else text.takeWhile (· ≠ ' ')

def Kind.literal? (lexeme : Text) : Kind → Option Literal
  | .number => some (.number (.ofDecimal (.ofNumeral lexeme)))
  | .string => some (.string (lexeme.drop 1).dropLast)
  | _ => none

def readToken (text : Text) : Option ((Kind × Text × Option Literal) × Text) :=
  let name := text.takeWhile (· ≠ ' ')
  (Kind.ofName? name).map fun kind =>
    let lexeme := kind.readLexeme (text.drop (name.length + 1))
    let t : Token := ⟨kind, lexeme, kind.literal? lexeme, 0⟩
    (t.gist, text.drop (t.render.length + 1))

theorem length_lt_of_readToken {text rest : Text} {gist : Kind × Text × Option Literal}
    (h : readToken text = some (gist, rest)) : rest.length < text.length := by
  cases text with
  | nil =>
    have none : Kind.ofName? [] = none := by decide
    simp [readToken, none] at h
  | cons c text =>
    obtain ⟨kind, -, same⟩ := Option.map_eq_some_iff.1 h
    obtain ⟨-, rfl⟩ := Prod.ext_iff.1 same
    simp only [List.drop_succ_cons, List.length_drop, List.length_cons]
    omega

def readTokens (text : Text) : List (Kind × Text × Option Literal) × Text :=
  match h : readToken text with
  | none => ([], text)
  | some (gist, rest) =>
    have : rest.length < text.length := length_lt_of_readToken h
    if gist.1 = .eof then ([gist], rest) else (readTokens rest).map (gist :: ·) id
termination_by text.length

/-- A token that can be told from its kind and what is written behind it. -/
structure Token.Legible (t : Token) : Prop where
  lexeme : ∀ rest, t.kind.readLexeme (t.lexeme ++ ' ' :: rest) = t.lexeme
  literal : t.kind.literal? t.lexeme = t.literal

def Session.outputOf (s : Session) (source : Text) : ByteArray :=
  (s.run source).1.out.since s.out

variable {kind : Kind} {lexeme text rest : Text} {literal : Option Literal} {t : Token}
  {words : List Token} {source₁ source₂ : Text}

theorem Kind.space_not_mem_name (kind : Kind) : ' ' ∉ kind.name.toList := by
  cases kind <;> decide

theorem Kind.ofName?_name (kind : Kind) : ofName? kind.name.toList = some kind := by
  cases kind <;> decide

theorem WellFormed.literal?_eq (h : WellFormed kind lexeme literal) :
    kind.literal? lexeme = literal := by
  cases h with
  | spelled spelled => cases kind <;> simp_all [Kind.spelling?, Kind.literal?]
  | identifier _ _ => rfl
  | number _ => rfl
  | string _ => simp [Kind.literal?]

theorem WellFormed.readLexeme_append (h : WellFormed kind lexeme literal) (rest : Text) :
    kind.readLexeme (lexeme ++ ' ' :: rest) = lexeme := by
  by_cases hk : kind = .string
  · subst hk
    obtain ⟨value, rfl, -, clean⟩ := h.string_inv
    have value := takeWhile_ne_append clean (' ' :: rest)
    simpa [Kind.readLexeme] using value
  · have clean : ' ' ∉ lexeme := fun space => absurd (h.visible hk _ space) (by decide)
    rw [Kind.readLexeme, if_neg hk, takeWhile_ne_append clean]

theorem WellFormed.legible (h : WellFormed t.kind t.lexeme t.literal) : t.Legible :=
  ⟨h.readLexeme_append, h.literal?_eq⟩

theorem Token.legible_endOfInput (line : Nat) : (endOfInput line).Legible :=
  ⟨fun _ => rfl, rfl⟩

theorem readToken_render (h : t.Legible) (rest : Text) :
    readToken (t.render ++ '\n' :: rest) = some (t.gist, rest) := by
  have whole : t.render ++ '\n' :: rest = t.kind.name.toList ++ ' ' ::
      (t.lexeme ++ ' ' :: ((t.literal.map Literal.render).getD [] ++ '\n' :: rest)) := by
    simp [Token.render]
  have name : (t.render ++ '\n' :: rest).takeWhile (· ≠ ' ') = t.kind.name.toList := by
    rw [whole, takeWhile_ne_append t.kind.space_not_mem_name]
  have behind : (t.render ++ '\n' :: rest).drop (t.kind.name.toList.length + 1) =
      t.lexeme ++ ' ' :: ((t.literal.map Literal.render).getD [] ++ '\n' :: rest) := by
    rw [whole, ← List.drop_drop, List.drop_left]
    rfl
  have next : (t.render ++ '\n' :: rest).drop (t.render.length + 1) = rest := by
    rw [← List.drop_drop, List.drop_left]
    rfl
  simp only [readToken, name, Kind.ofName?_name, Option.map_some, behind, h.lexeme, h.literal]
  exact congrArg (fun rest => some (t.gist, rest)) next

theorem readTokens_render (h : t.Legible) (rest : Text) : readTokens (t.render ++ '\n' :: rest) =
    if t.kind = .eof then ([t.gist], rest) else (readTokens rest).map (t.gist :: ·) id := by
  have read := readToken_render h rest
  rw [readTokens]
  split
  next none =>
    rw [read] at none
    contradiction
  next found =>
    obtain ⟨rfl, rfl⟩ : t.gist = _ ∧ rest = _ := by simpa [read] using found
    rfl

theorem readTokens_listing (formed : ∀ t ∈ words, WellFormed t.kind t.lexeme t.literal)
    (lastLine : Nat) (rest : Text) :
    readTokens (Token.listing (words ++ [.endOfInput lastLine]) ++ rest) =
      ((words ++ [Token.endOfInput lastLine]).map Token.gist, rest) := by
  induction words with
  | nil =>
    have split : Token.listing [.endOfInput lastLine] ++ rest =
        (Token.endOfInput lastLine).render ++ '\n' :: rest := by simp [Token.listing]
    rw [List.nil_append, split, readTokens_render (Token.legible_endOfInput lastLine)]
    rfl
  | cons t words ih =>
    obtain ⟨ht, formed⟩ := List.forall_mem_cons.1 formed
    have split : Token.listing (t :: words ++ [.endOfInput lastLine]) ++ rest =
        t.render ++ '\n' :: (Token.listing (words ++ [.endOfInput lastLine]) ++ rest) := by
      simp [Token.listing]
    rw [split, readTokens_render ht.legible, if_neg ht.kind_ne_eof, ih formed]
    rfl

theorem readTokens_scan (source rest : Text) :
    readTokens (Token.listing (scan source).tokens ++ rest) =
      ((scan source).tokens.map Token.gist, rest) := by
  rw [tokens_scan, ← filter_tokens_scan]
  exact readTokens_listing (fun _ => wellFormed_of_mem_filter) _ rest

theorem listing_eq_of_gist {ts us : List Token} (h : ts.map Token.gist = us.map Token.gist) :
    Token.listing ts = Token.listing us := by
  have printed (ts : List Token) : Token.listing ts = (ts.map Token.gist).flatMap
      fun (kind, lexeme, literal) => Token.render ⟨kind, lexeme, literal, 0⟩ ++ ['\n'] := by
    rw [List.flatMap_map]
    rfl
  rw [printed, printed us, h]

theorem gist_of_listing {more : Text}
    (h : Token.listing (scan source₁).tokens ++ more = Token.listing (scan source₂).tokens) :
    (scan source₁).tokens.map Token.gist = (scan source₂).tokens.map Token.gist ∧ more = [] := by
  have read := readTokens_scan source₁ more
  have whole := readTokens_scan source₂ []
  rw [List.append_nil, ← h, read] at whole
  exact Prod.ext_iff.1 whole

theorem Session.Unfailing.outputOf_eq {s : Session} (h : s.Unfailing) (source : Text) :
    s.outputOf source = (Token.listing (scan source).tokens).utf8Encode := by
  have written := (h.told_ran source).out
  rw [outputOf, Sink.since, h.run_eq, written, ByteArray.extract_append_eq_right rfl
    ByteArray.size_append, ← listing_scan, String.toUTF8_eq_toByteArray, String.toByteArray_ofList]

theorem Session.Unfailing.gist_of_outputOf {s₁ s₂ : Session} (h₁ : s₁.Unfailing)
    (h₂ : s₂.Unfailing) {more : ByteArray}
    (h : s₁.outputOf source₁ ++ more = s₂.outputOf source₂) :
    (scan source₁).tokens.map Token.gist = (scan source₂).tokens.map Token.gist ∧
      more = .empty := by
  rw [h₁.outputOf_eq, h₂.outputOf_eq] at h
  obtain ⟨rest, whole⟩ := List.isPrefix_of_utf8Encode_append_eq_utf8Encode more h
  obtain ⟨gist, rfl⟩ := gist_of_listing whole
  rw [← whole, List.append_nil] at h
  exact ⟨gist, (ByteArray.append_right_inj _).1 (h.trans ByteArray.append_empty.symm)⟩

/-- The output of a run tells the tokens, all but their lines, and no output goes on where another
ends: not even strings that hold what looks like printed tokens mislead the reader. -/
theorem output_decodable {s₁ s₂ : Session} (h₁ : s₁.Unfailing) (h₂ : s₂.Unfailing)
    (source₁ source₂ : Text) :
    (s₁.outputOf source₁ = s₂.outputOf source₂ ↔
      (scan source₁).tokens.map Token.gist = (scan source₂).tokens.map Token.gist) ∧
    (∀ more, s₁.outputOf source₁ ++ more = s₂.outputOf source₂ → more = .empty) ∧
    (Token.listing (scan source₁).tokens <+: Token.listing (scan source₂).tokens →
      Token.listing (scan source₁).tokens = Token.listing (scan source₂).tokens) ∧
    ∀ rest, readTokens (Token.listing (scan source₁).tokens ++ rest) =
      ((scan source₁).tokens.map Token.gist, rest) := by
  refine ⟨⟨?_, ?_⟩, ?_, ?_, readTokens_scan source₁⟩
  · intro same
    exact (h₁.gist_of_outputOf h₂ (ByteArray.append_empty.trans same)).1
  · intro gist
    rw [h₁.outputOf_eq, h₂.outputOf_eq, listing_eq_of_gist gist]
  · intro more whole
    exact (h₁.gist_of_outputOf h₂ whole).2
  · rintro ⟨more, whole⟩
    exact listing_eq_of_gist (gist_of_listing whole).1

theorem output_decodable_of_disguised_string :
    let s₁ : Session := {}
    let s₂ : Session := { out := { written := "> ".toUTF8 }, colored := true }
    let source₁ : Text := ['"', ' ', '\n', 'D', 'O', 'T', ' ', '.', ' ', '\n', 'E', 'O', 'F', ' ',
      ' ', '\n', '"']
    let source₂ : Text := ['"', ' ', '\n', 'D', 'O', 'T', ' ', '.', ' ', '"', '/', '*', '\n']
    s₁.Unfailing ∧ s₂.Unfailing ∧
      (s₁.outputOf source₁ = s₂.outputOf source₂ ↔
        (scan source₁).tokens.map Token.gist = (scan source₂).tokens.map Token.gist) ∧
      (∀ more, s₁.outputOf source₁ ++ more = s₂.outputOf source₂ → more = .empty) ∧
      (Token.listing (scan source₁).tokens <+: Token.listing (scan source₂).tokens →
        Token.listing (scan source₁).tokens = Token.listing (scan source₂).tokens) ∧
      ∀ rest, readTokens (Token.listing (scan source₁).tokens ++ rest) =
        ((scan source₁).tokens.map Token.gist, rest) :=
  ⟨⟨rfl, rfl, rfl⟩, ⟨rfl, rfl, rfl⟩, output_decodable ⟨rfl, rfl, rfl⟩ ⟨rfl, rfl, rfl⟩ _ _⟩

end LoxLexer
