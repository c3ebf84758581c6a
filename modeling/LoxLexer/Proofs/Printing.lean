import LoxLexer.Proofs.Blanks
import LoxLexer.Proofs.Concat

namespace LoxLexer

structure Word where
  kind : Kind
  lexeme : Text
  literal : Option Literal
  wellFormed : WellFormed kind lexeme literal

def Blanks (gap : Text) : Prop := ∀ c ∈ gap, c = ' ' ∨ c = '\r' ∨ c = '\t' ∨ c = '\n'

/-- Words in a row, each with the blanks behind it. Only behind the last there may be none. -/
inductive Spaced : List (Word × Text) → Prop
  | nil : Spaced []
  | last : Blanks gap → Spaced [(w, gap)]
  | cons : Blanks gap → gap ≠ [] → Spaced (next :: row) → Spaced ((w, gap) :: next :: row)

def printed (row : List (Word × Text)) : Text := row.flatMap fun (w, gap) => w.lexeme ++ gap

def Word.on (line : Nat) (w : Word) : Token := ⟨w.kind, w.lexeme, w.literal, line⟩

/-- The tokens of a row that stands behind `before`, each on the line on which its lexeme ends. -/
def placed (before : Text) : List (Word × Text) → List Token
  | [] => []
  | (w, gap) :: row =>
    w.on (1 + (before ++ w.lexeme).lineFeeds) :: placed (before ++ w.lexeme ++ gap) row

def Token.gist (t : Token) : Kind × Text × Option Literal := (t.kind, t.lexeme, t.literal)

def Word.gist (w : Word) : Kind × Text × Option Literal := (w.kind, w.lexeme, w.literal)

def Text.respaced (source : Text) : Text :=
  [' '].intercalate (((scan source).tokens.filter (·.kind ≠ .eof)).map Token.lexeme)

variable {kind : Kind} {literal : Option Literal} {text after gap rest : Text} {line : Nat}
  {row : List (Word × Text)} {w : Word}

theorem blanks_nil : Blanks [] := by simp [Blanks]

theorem WellFormed.exists_cut (h : WellFormed kind text literal) :
    ∃ shape, Cut shape text [] ∧ shape.sense text = .token kind literal := by
  obtain ⟨c, more, rfl, -⟩ := (Pattern.token h : Pattern _ text []).exists_cons
  have bound := Shape.munch_le c more
  have cut := cut_munch c more
  have outdone : Outdone (.token kind literal) c more [] := h.outdone
  rw [Outdone, List.append_nil] at outdone
  rcases outdone with longer | ⟨size, sense⟩
  · omega
  · rw [← size, List.take_length, List.drop_length] at cut
    exact ⟨_, cut, sense⟩

theorem Shape.takesBlanks_of_token {shape : Shape} (h : shape.sense text = .token kind literal) :
    shape.takesBlanks = false := by
  cases shape <;> simp_all [sense, takesBlanks]

theorem Word.exists_cut (w : Word) (goes : UpToBlank [] after) :
    ∃ shape, Cut shape w.lexeme after ∧ shape.sense w.lexeme = .token w.kind w.literal := by
  obtain ⟨shape, cut, sense⟩ := w.wellFormed.exists_cut
  exact ⟨shape, cut.upToBlank (Shape.takesBlanks_of_token sense) goes, sense⟩

theorem Piece.diagnostics_of_token? {p : Piece} {t : Token} (h : p.token? = some t) :
    p.diagnostics = [] := by
  obtain ⟨shape, text, line⟩ := p
  cases shape with
  | blockComment | openString | openComment | stray c => simp [token?] at h
  | _ => rfl

def found (line : Nat) (source : Text) : List Token × List Diagnostic :=
  ((pieces line source).filterMap Piece.token?, (pieces line source).flatMap Piece.diagnostics)

theorem found_blanks (blanks : Blanks gap) (line : Nat) (rest : Text) :
    found line (gap ++ rest) = found (line + gap.lineFeeds) rest := by
  have told := telling_blanks (fun c hc => (isBlank_iff c).2 (blanks c hc)) line rest
  rw [found, found, ← filterMap_token?_telling, ← flatMap_diagnostics_telling, told,
    filterMap_token?_telling, flatMap_diagnostics_telling]

theorem found_word (goes : UpToBlank [] after) (line : Nat) (w : Word) :
    found line (w.lexeme ++ after) =
      (w.on (line + w.lexeme.lineFeeds) :: (found (line + w.lexeme.lineFeeds) after).1,
        (found (line + w.lexeme.lineFeeds) after).2) := by
  obtain ⟨shape, cut, sense⟩ := w.exists_cut goes
  have token : Piece.token? ⟨shape, w.lexeme, line⟩ = some (w.on (line + w.lexeme.lineFeeds)) := by
    rw [Piece.token?_eq, Piece.item?_eq, sense]
    rfl
  rw [found, cut.pieces_eq, List.filterMap_cons_some token, List.flatMap_cons,
    Piece.diagnostics_of_token? token]
  rfl

theorem Spaced.upToBlank (h : Spaced ((w, gap) :: row)) : UpToBlank [] (gap ++ printed row) := by
  cases h with
  | last blanks =>
    cases gap with
    | nil => exact .nil
    | cons c gap => exact .blank ((isBlank_iff c).2 (blanks c List.mem_cons_self))
  | cons blanks some _ =>
    cases gap with
    | nil => exact absurd rfl some
    | cons c gap => exact .blank ((isBlank_iff c).2 (blanks c List.mem_cons_self))

theorem Spaced.tail (h : Spaced ((w, gap) :: row)) : Blanks gap ∧ Spaced row := by
  cases h with
  | last blanks => exact ⟨blanks, .nil⟩
  | cons blanks _ later => exact ⟨blanks, later⟩

theorem found_printed (spaced : Spaced row) (before : Text) :
    found (1 + before.lineFeeds) (printed row) = (placed before row, []) := by
  induction row generalizing before with
  | nil => rfl
  | cons next row ih =>
    obtain ⟨w, gap⟩ := next
    obtain ⟨blanks, later⟩ := spaced.tail
    have text : printed ((w, gap) :: row) = w.lexeme ++ (gap ++ printed row) := by simp [printed]
    have line : 1 + before.lineFeeds + w.lexeme.lineFeeds =
        1 + (before ++ w.lexeme).lineFeeds := by rw [Text.lineFeeds_append, Nat.add_assoc]
    rw [text, found_word spaced.upToBlank, found_blanks blanks, line, Nat.add_assoc,
      ← Text.lineFeeds_append, ih later]
    rfl

theorem scan_eq_found (source : Text) : scan source =
    ⟨(found 1 source).1 ++ [.endOfInput (1 + source.lineFeeds)], (found 1 source).2⟩ := rfl

theorem scan_spaced {lead : Text} (blanks : Blanks lead) (spaced : Spaced row) :
    scan (lead ++ printed row) =
      ⟨placed lead row ++ [.endOfInput (1 + (lead ++ printed row).lineFeeds)], []⟩ := by
  rw [scan_eq_found, found_blanks blanks, found_printed spaced]

def spread : List Word → List (Word × Text)
  | [] => []
  | [w] => [(w, [])]
  | w :: v :: words => (w, [' ']) :: spread (v :: words)

theorem spread_cons_cons (w v : Word) (words : List Word) :
    spread (w :: v :: words) = (w, [' ']) :: spread (v :: words) := rfl

theorem spaced_spread (words : List Word) : Spaced (spread words) := by
  have space : Blanks [' '] := by simp [Blanks]
  induction words using spread.induct with
  | case1 => exact .nil
  | case2 w => exact .last blanks_nil
  | case3 w v words ih =>
    rw [spread_cons_cons]
    cases words with
    | nil => exact .cons space (by simp) ih
    | cons u words => exact .cons space (by simp) ih

theorem printed_spread (words : List Word) :
    printed (spread words) = [' '].intercalate (words.map Word.lexeme) := by
  induction words using spread.induct with
  | case1 => rfl
  | case2 w => simp [spread, printed]
  | case3 w v words ih =>
    have first : printed (spread (w :: v :: words)) =
        w.lexeme ++ ' ' :: printed (spread (v :: words)) := by
      simp [spread_cons_cons, printed]
    rw [first, ih]
    simp [List.intercalate_cons_cons]

theorem gist_placed (before : Text) (row : List (Word × Text)) :
    (placed before row).map Token.gist = row.map fun next => next.1.gist := by
  induction row generalizing before with
  | nil => rfl
  | cons next row ih =>
    rw [placed, List.map_cons, List.map_cons, ih]
    rfl

theorem gist_spread (words : List Word) :
    (spread words).map (fun next => next.1.gist) = words.map Word.gist := by
  induction words using spread.induct with
  | case1 => rfl
  | case2 w => rfl
  | case3 w v words ih => rw [spread_cons_cons, List.map_cons, List.map_cons, ih]

theorem exists_words {tokens : List Token}
    (h : ∀ t ∈ tokens, WellFormed t.kind t.lexeme t.literal) :
    ∃ words : List Word, words.map Word.gist = tokens.map Token.gist ∧
      words.map Word.lexeme = tokens.map Token.lexeme := by
  induction tokens with
  | nil => exact ⟨[], rfl, rfl⟩
  | cons t tokens ih =>
    obtain ⟨ht, h⟩ := List.forall_mem_cons.1 h
    obtain ⟨words, gists, lexemes⟩ := ih h
    refine ⟨⟨t.kind, t.lexeme, t.literal, ht⟩ :: words, ?_, ?_⟩
    · rw [List.map_cons, List.map_cons, gists]
      rfl
    · rw [List.map_cons, List.map_cons, lexemes]

theorem wellFormed_of_mem_filter {source : Text} {t : Token}
    (ht : t ∈ (scan source).tokens.filter (·.kind ≠ .eof)) :
    WellFormed t.kind t.lexeme t.literal := by
  rw [filter_tokens_scan] at ht
  obtain ⟨p, hp, token⟩ := List.mem_filterMap.1 ht
  exact ((cuts_pieces 1 source).wellFormed hp (Piece.item?_of_token? token)).1

theorem wellFormed_of_mem_scan {source : Text} {t : Token} (ht : t ∈ (scan source).tokens)
    (hk : t.kind ≠ .eof) : WellFormed t.kind t.lexeme t.literal :=
  wellFormed_of_mem_filter (List.mem_filter.2 ⟨ht, decide_eq_true hk⟩)

theorem Word.mem_scan (w : Word) : w.on (1 + w.lexeme.lineFeeds) ∈ (scan w.lexeme).tokens := by
  have spaced : Spaced [(w, [])] := .last blanks_nil
  have whole : printed [(w, [])] = w.lexeme := by simp [printed]
  have scanned := scan_spaced blanks_nil spaced
  rw [List.nil_append, whole] at scanned
  rw [scanned]
  exact List.mem_cons_self

theorem wellFormed_iff_mem_scan (kind : Kind) (lexeme : Text) (literal : Option Literal) :
    WellFormed kind lexeme literal ↔
      ∃ source, ∃ t ∈ (scan source).tokens, t.kind ≠ .eof ∧ t.gist = (kind, lexeme, literal) := by
  constructor
  · intro h
    exact ⟨lexeme, _, Word.mem_scan ⟨kind, lexeme, literal, h⟩, h.kind_ne_eof, rfl⟩
  · rintro ⟨source, t, ht, hk, same⟩
    obtain ⟨rfl, rfl, rfl⟩ : t.kind = kind ∧ t.lexeme = lexeme ∧ t.literal = literal := by
      simpa [Token.gist] using same
    exact wellFormed_of_mem_scan ht hk

theorem gist_scan (source : Text) : (scan source).tokens.map Token.gist =
    ((scan source).tokens.filter (·.kind ≠ .eof)).map Token.gist ++ [(.eof, [], none)] := by
  rw [filter_tokens_scan, tokens_scan, List.map_append]
  rfl

theorem scan_respaced (source : Text) :
    (scan source.respaced).tokens.map Token.gist = (scan source).tokens.map Token.gist ∧
      (scan source.respaced).diagnostics = [] := by
  obtain ⟨words, gists, lexemes⟩ := exists_words fun _ => @wellFormed_of_mem_filter source _
  have text : source.respaced = printed (spread words) := by
    rw [Text.respaced, ← lexemes, printed_spread]
  have scanned := scan_spaced blanks_nil (spaced_spread words)
  rw [List.nil_append, ← text] at scanned
  rw [scanned, gist_scan source, List.map_append, gist_placed, gist_spread, gists]
  exact ⟨rfl, rfl⟩

/-- Scanning undoes printing, whatever blanks stand between the lexemes, and gives nothing that
could not have been printed. -/
theorem scan_undoes_printing :
    (∀ kind lexeme literal, WellFormed kind lexeme literal ↔
      ∃ source, ∃ t ∈ (scan source).tokens, t.kind ≠ .eof ∧ t.gist = (kind, lexeme, literal)) ∧
    (∀ lead row, Blanks lead → Spaced row → scan (lead ++ printed row) =
      ⟨placed lead row ++ [.endOfInput (1 + (lead ++ printed row).lineFeeds)], []⟩) ∧
    ∀ source : Text,
      (scan source.respaced).tokens.map Token.gist = (scan source).tokens.map Token.gist ∧
        (scan source.respaced).diagnostics = [] :=
  ⟨wellFormed_iff_mem_scan, fun _ _ => scan_spaced, scan_respaced⟩

def slashWord : Word := ⟨.slash, ['/'], none, .spelled rfl⟩

def starWord : Word :=
  ⟨.string, ['"', '*', '\n', '/', '"'], some (.string ['*', '\n', '/']),
    @WellFormed.string ['*', '\n', '/'] (by decide)⟩

theorem scan_undoes_printing_of_slash :
    let row := [(slashWord, ['\t']), (starWord, ['\r', '\n']), (slashWord, [])]
    Blanks ['\n'] ∧ Spaced row ∧ scan ('\n' :: printed row) =
      ⟨placed ['\n'] row ++ [.endOfInput (1 + Text.lineFeeds ('\n' :: printed row))], []⟩ := by
  have lead : Blanks ['\n'] := by simp [Blanks]
  have spaced : Spaced [(slashWord, ['\t']), (starWord, ['\r', '\n']), (slashWord, [])] := by
    refine .cons ?_ ?_ (.cons ?_ ?_ (.last blanks_nil)) <;> simp [Blanks]
  exact ⟨lead, spaced, scan_undoes_printing.2.1 _ _ lead spaced⟩

end LoxLexer
