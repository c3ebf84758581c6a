import Mathlib.Data.List.Basic
import LoxLexer.Proofs.Blanks
import LoxLexer.Proofs.Respelling
import LoxLexer.Proofs.Tiling

namespace LoxLexer

def Literal.respell (spell : Text → Text) : Literal → Literal
  | .number value => .number value
  | .string value => .string (spell value)

def Token.respell (spell : Text → Text) (t : Token) : Token :=
  { t with lexeme := spell t.lexeme, literal := t.literal.map (.respell spell) }

def LexicalFault.respell (letter : Char → Char) : LexicalFault → LexicalFault
  | .unexpectedCharacter c => .unexpectedCharacter (letter c)
  | cause => cause

def Fault.respell (letter : Char → Char) : Fault → Fault
  | .lexical line cause => .lexical line (cause.respell letter)
  | f => f

def Item.respell (spell : Text → Text) (letter : Char → Char) : Item → Item
  | .token t => .token (t.respell spell)
  | .fault f => .fault (f.respell letter)

/-- The message is respelled letter by letter: it can name a character of the source. -/
def Diagnostic.respell (letter : Char → Char) (d : Diagnostic) : Diagnostic :=
  { d with message := String.ofList (d.message.toList.map letter) }

def Sense.respell (r : Respelling) : Sense → Sense
  | .token kind literal => .token kind (literal.map (.respell r.spell))
  | .trivia => .trivia
  | .fault cause => .fault (cause.respell r.letter)

def Piece.respell (r : Respelling) (p : Piece) : Piece :=
  ⟨p.shape.respell r.letter, r.spell p.text, p.line⟩

variable {shape : Shape} {text after source : Text} {line : Nat} {c : Char} {ps : List Piece}

theorem Piece.lastLine_respell (r : Respelling) (p : Piece) :
    (p.respell r).lastLine = p.lastLine := by
  rw [lastLine, lastLine, respell, (r.spells_spell p.text).lineFeeds]

theorem Cut.sense_respell (r : Respelling) (h : Cut shape text after) :
    (shape.respell r.letter).sense (r.spell text) = (shape.sense text).respell r := by
  cases shape with
  | number =>
    have same := r.spell_visible (h.visible rfl)
    simp only [Shape.respell, Shape.sense, Sense.respell, same, Option.map_some, Literal.respell]
  | string =>
    cases h with
    | string clean =>
      rw [r.spell_quoted]
      simp [Shape.respell, Shape.sense, Sense.respell, Literal.respell]
  | _ => rfl

theorem Sense.item?_respell (r : Respelling) (text : Text) (line : Nat) (sense : Sense) :
    (sense.respell r).item? (r.spell text) line =
      (sense.item? text line).map (.respell r.spell r.letter) := by
  cases sense <;> rfl

theorem Cut.item?_respell (r : Respelling) (h : Cut shape text after) (line : Nat) :
    (Piece.respell r ⟨shape, text, line⟩).item? =
      (Piece.item? ⟨shape, text, line⟩).map (.respell r.spell r.letter) := by
  rw [Piece.item?_eq, Piece.item?_eq, Piece.lastLine_respell, ← Sense.item?_respell,
    ← h.sense_respell]
  rfl

theorem Diagnostic.respell_nestedComment (r : Respelling) (line : Nat) :
    (nestedComment line).respell r.letter = nestedComment line := by
  have ascii : (nestedComment 0).message.toList.all Char.isAscii := by decide
  have same : (nestedComment line).message.toList.map r.letter =
      (nestedComment line).message.toList := r.map_letter ascii
  rw [respell, same, String.ofList_toList]

theorem LexicalFault.message_respell (r : Respelling) (cause : LexicalFault) :
    (cause.respell r.letter).message = String.ofList (cause.message.toList.map r.letter) := by
  cases cause with
  | unexpectedCharacter c =>
    apply String.toList_inj.1
    rw [String.toList_ofList, toList_message_unexpectedCharacter, List.map_append, List.map_cons,
      r.map_letter (by decide), r.map_letter (by decide)]
    exact toList_message_unexpectedCharacter _
  | unterminatedString =>
    rw [r.map_letter (by decide), String.ofList_toList]
    rfl
  | unterminatedComment =>
    rw [r.map_letter (by decide), String.ofList_toList]
    rfl

theorem Diagnostic.respell_ofFault (r : Respelling) (line : Nat) (cause : LexicalFault) :
    (ofFault (.lexical line cause)).respell r.letter =
      ofFault (.lexical line (cause.respell r.letter)) := by
  rw [ofFault, ofFault, respell, Fault.message, Fault.message, cause.message_respell r]
  rfl

theorem Cut.warnings_respell (r : Respelling) (h : Cut shape text after) (line : Nat) :
    (Piece.respell r ⟨shape, text, line⟩).warnings = Piece.warnings ⟨shape, text, line⟩ := by
  have inside (body : Text) : openers line ((r.spell ('/' :: '*' :: body)).drop 2) =
      openers line body := by
    rw [r.spell_comment]
    exact (r.spells_spell body).openers_eq line
  cases h with
  | blockComment once => exact congrArg (List.map Diagnostic.nestedComment) (inside _)
  | openComment never => exact congrArg (List.map Diagnostic.nestedComment) (inside _)
  | _ => rfl

theorem Piece.respell_of_mem_warnings (r : Respelling) {p : Piece} {d : Diagnostic}
    (h : d ∈ p.warnings) : d.respell r.letter = d := by
  obtain ⟨line, rfl⟩ := exists_of_mem_warnings h
  exact Diagnostic.respell_nestedComment r line

theorem Piece.cause?_respell (r : Respelling) (p : Piece) :
    (p.respell r).cause? = p.cause?.map (.respell r.letter) := by
  obtain ⟨shape, text, line⟩ := p
  cases shape <;> rfl

theorem Cut.diagnostics_respell (r : Respelling) (h : Cut shape text after) (line : Nat) :
    (Piece.respell r ⟨shape, text, line⟩).diagnostics =
      (Piece.diagnostics ⟨shape, text, line⟩).map (.respell r.letter) := by
  have warnings : (Piece.warnings ⟨shape, text, line⟩).map (.respell r.letter) =
      Piece.warnings ⟨shape, text, line⟩ := by
    rw [List.map_congr_left fun d => Piece.respell_of_mem_warnings r, List.map_id']
  rw [Piece.diagnostics, Piece.diagnostics, List.map_append, h.warnings_respell r, warnings,
    Piece.fault?, Piece.fault?, Piece.cause?_respell, Piece.lastLine_respell]
  cases Piece.cause? ⟨shape, text, line⟩ with
  | none => rfl
  | some cause =>
    exact congrArg (fun d => Piece.warnings _ ++ [d])
      (Diagnostic.respell_ofFault r (Piece.lastLine ⟨shape, text, line⟩) cause).symm

theorem Respelling.isBlank_spell (r : Respelling) (hc : isBlank c) :
    ∀ d ∈ r.spell [c], isBlank d := by
  by_cases lineFeed : c = '\n'
  · subst lineFeed
    rw [spell_lineFeed]
    exact List.forall_mem_append.2 ⟨r.blank, List.forall_mem_singleton.2 rfl⟩
  · rw [r.spell_cons lineFeed, r.keeps.ascii c (isAscii_of_isBlank hc)]
    simpa using hc

theorem Cut.telling_lineComment_spell (r : Respelling) (h : Cut .lineComment text after)
    (line : Nat) : telling (pieces line (r.spell text ++ r.spell after)) =
      telling (pieces (line + text.lineFeeds) (r.spell after)) := by
  have lines := (r.spells_spell text).lineFeeds
  cases h with
  | @lineComment body _ clean stop =>
    have slashes : r.spell ('/' :: '/' :: body) = '/' :: '/' :: r.spell body := by
      rw [r.spell_visible_cons (by decide), r.spell_visible_cons (by decide)]
    have clean' : '\n' ∉ r.spell body := by
      apply List.count_eq_zero.1
      exact (r.spells_spell body).lineFeeds.trans (List.count_eq_zero.2 clean)
    rw [slashes] at lines ⊢
    cases after with
    | nil =>
      have cut : Cut .lineComment ('/' :: '/' :: r.spell body) [] := .lineComment clean' rfl
      rw [r.spell_nil, cut.pieces_eq]
      rfl
    | cons c rest =>
      obtain rfl : c = '\n' := by simpa using stop
      have clean'' : '\n' ∉ r.spell body ++ r.gap := by simp [clean', r.oneLine]
      have cut : Cut .lineComment ('/' :: '/' :: (r.spell body ++ r.gap)) ('\n' :: r.spell rest) :=
        .lineComment clean'' rfl
      have split : '/' :: '/' :: r.spell body ++ (r.gap ++ '\n' :: r.spell rest) =
          '/' :: '/' :: (r.spell body ++ r.gap) ++ '\n' :: r.spell rest := by simp
      rw [r.spell_lineFeed, split, cut.pieces_eq, telling_blanks r.blank, telling_cons, ← lines,
        Nat.add_assoc, ← Text.lineFeeds_append]
      rfl

theorem telling_map_respell (r : Respelling) (ps : List Piece) :
    telling (ps.map (.respell r)) = (telling ps).map (.respell r) := by
  have tells : Piece.tells ∘ Piece.respell r = Piece.tells := by
    funext p
    obtain ⟨shape, text, line⟩ := p
    cases shape <;> rfl
  rw [telling, List.filter_map, tells]
  rfl

theorem Cuts.telling_spell (r : Respelling) (h : Cuts line source ps) :
    telling (pieces line (r.spell source)) = (telling ps).map (.respell r) := by
  induction h with
  | nil => rfl
  | @cons shape text after line ps cut _ ih =>
    have lines := (r.spells_spell text).lineFeeds
    rw [r.spell_append]
    by_cases comments : shape = .lineComment
    · subst comments
      rw [cut.telling_lineComment_spell, ih]
      rfl
    by_cases blanks : shape = .blank
    · subst blanks
      cases cut with
      | blank hc =>
        rw [telling_blanks (r.isBlank_spell hc), lines, ih]
        rfl
    calc
      _ = telling [Piece.respell r ⟨shape, text, line⟩] ++ (telling ps).map (.respell r) := by
        rw [(cut.spell r blanks comments).pieces_eq, telling_cons, lines, ih]
        rfl
      _ = (telling (⟨shape, text, line⟩ :: ps)).map (.respell r) := by
        rw [telling_cons _ ps, List.map_append, ← telling_map_respell r [_]]
        rfl

theorem Cuts.items_spell (r : Respelling) (h : Cuts line source ps) :
    (pieces line (r.spell source)).filterMap Piece.item? =
      (ps.filterMap Piece.item?).map (.respell r.spell r.letter) := by
  rw [← filterMap_item?_telling, h.telling_spell r, ← filterMap_item?_telling ps,
    List.filterMap_map, List.map_filterMap]
  apply List.filterMap_congr
  intro p hp
  obtain ⟨after, cut⟩ := h.cut_of_mem (List.mem_of_mem_filter hp)
  exact cut.item?_respell r p.line

theorem Cuts.warnings_spell (r : Respelling) (h : Cuts line source ps) :
    (pieces line (r.spell source)).flatMap Piece.warnings = ps.flatMap Piece.warnings := by
  rw [← flatMap_warnings_telling, h.telling_spell r, ← flatMap_warnings_telling ps,
    List.flatMap_map]
  apply List.flatMap_congr
  intro p hp
  obtain ⟨after, cut⟩ := h.cut_of_mem (List.mem_of_mem_filter hp)
  exact cut.warnings_respell r p.line

theorem Cuts.diagnostics_spell (r : Respelling) (h : Cuts line source ps) :
    (pieces line (r.spell source)).flatMap Piece.diagnostics =
      (ps.flatMap Piece.diagnostics).map (.respell r.letter) := by
  rw [← flatMap_diagnostics_telling, h.telling_spell r, ← flatMap_diagnostics_telling ps,
    List.flatMap_map, List.map_flatMap]
  apply List.flatMap_congr
  intro p hp
  obtain ⟨after, cut⟩ := h.cut_of_mem (List.mem_of_mem_filter hp)
  exact cut.diagnostics_respell r p.line

theorem items_spell (r : Respelling) (source : Text) :
    (Cursor.ofSource (r.spell source)).items =
      ((Cursor.ofSource source).items.1.map (.respell r.spell r.letter),
        (Cursor.ofSource source).items.2) := by
  have run := cuts_pieces 1 source
  have lines := (r.spells_spell source).lineFeeds
  simp only [Cursor.items, Cursor.ofSource, run.items_spell r, run.warnings_spell r, lines]

theorem scan_spell (r : Respelling) (source : Text) :
    scan (r.spell source) =
      ⟨(scan source).tokens.map (.respell r.spell),
        (scan source).diagnostics.map (.respell r.letter)⟩ := by
  have run := cuts_pieces 1 source
  have lines := (r.spells_spell source).lineFeeds
  have tokens : (scan (r.spell source)).tokens = (scan source).tokens.map (.respell r.spell) := by
    rw [tokens_scan, tokens_scan, List.map_append, ← filterMap_token?_items, run.items_spell r,
      ← filterMap_token?_items, List.filterMap_map, List.map_filterMap, lines]
    congr 2
    funext item
    cases item <;> rfl
  rw [← tokens, diagnostics_scan source, ← run.diagnostics_spell r]
  rfl

def Text.crlf (text : Text) : Text := text.flatMap fun c => if c = '\n' then ['\r', '\n'] else [c]

def Respelling.crlf : Respelling where
  letter := id
  gap := ['\r']
  keeps := ⟨fun _ _ => rfl, fun _ h => h⟩
  blank := List.forall_mem_singleton.2 rfl
  oneLine := by decide

/-- Carriage returns before the line feeds change the texts of tokens that hold line feeds, and
nothing else. -/
theorem scan_crlf (source : Text) : scan source.crlf =
    ⟨(scan source).tokens.map (.respell Text.crlf), (scan source).diagnostics⟩ := by
  have spelled := scan_spell .crlf source
  have same : Diagnostic.respell id = id := by
    funext d
    rw [Diagnostic.respell, List.map_id, String.ofList_toList]
    rfl
  simp only [Respelling.crlf, same, List.map_id] at spelled
  exact spelled

example : Text.crlf ['"', '\n', '"', '\r', '\n'] = ['"', '\r', '\n', '"', '\r', '\r', '\n'] := by
  decide

def Respelling.ofMap {f : Char → Char} (keeps : KeepsAscii f) : Respelling where
  letter := f
  gap := []
  keeps := keeps
  blank := by simp
  oneLine := by simp

theorem Respelling.spell_ofMap {f : Char → Char} (keeps : KeepsAscii f) :
    (ofMap keeps).spell = List.map f := by
  funext text
  induction text with
  | nil => rfl
  | cons c text ih =>
    by_cases hc : c = '\n'
    · subst hc
      rw [spell_lineFeed, ih, List.map_cons, keeps.ascii _ (by decide)]
      rfl
    · rw [spell_cons _ hc, ih]
      rfl

/-- Which characters stand outside ASCII, and how wide they are, shows in the texts and messages
that hold them and nowhere else: the items are the same one by one, and so are the warnings. -/
theorem scan_map {f : Char → Char} (keeps : KeepsAscii f) (source : Text) :
    (Cursor.ofSource (source.map f)).items =
      ((Cursor.ofSource source).items.1.map (.respell (List.map f) f),
        (Cursor.ofSource source).items.2) ∧
    scan (source.map f) =
      ⟨(scan source).tokens.map (.respell (List.map f)),
        (scan source).diagnostics.map (.respell f)⟩ ∧
    ∀ d ∈ (scan source).diagnostics, d.severity = .warning → d.respell f = d := by
  have items := items_spell (.ofMap keeps) source
  have spelled := scan_spell (.ofMap keeps) source
  rw [Respelling.spell_ofMap] at items spelled
  refine ⟨items, spelled, ?_⟩
  intro d hd warning
  rw [diagnostics_scan, List.mem_flatMap] at hd
  obtain ⟨p, -, hd⟩ := hd
  rcases List.mem_append.1 hd with hd | hd
  · exact Piece.respell_of_mem_warnings (.ofMap keeps) hd
  · obtain ⟨f, -, rfl⟩ := by simpa using hd
    simp [Diagnostic.ofFault, Diagnostic.error] at warning

theorem scan_map_of_wider_letter :
    let f : Char → Char := fun c => if c = 'é' then '語' else c
    let source : Text := ['é', '"', 'é', '\n', 'é', '"', '/', '*', 'é', '/', '*', '*', '/', '1',
      '.', 'é', 'x', '"', 'é']
    KeepsAscii f ∧
      (Cursor.ofSource (source.map f)).items =
        ((Cursor.ofSource source).items.1.map (.respell (List.map f) f),
          (Cursor.ofSource source).items.2) ∧
      scan (source.map f) =
        ⟨(scan source).tokens.map (.respell (List.map f)),
          (scan source).diagnostics.map (.respell f)⟩ ∧
      ∀ d ∈ (scan source).diagnostics, d.severity = .warning → d.respell f = d := by
  intro f source
  have keeps : KeepsAscii f := by
    constructor
    · rintro c ascii
      refine if_neg ?_
      rintro rfl
      exact absurd ascii (by decide)
    · intro c other
      by_cases hc : c = 'é'
      · simp only [f, hc, if_true]
        decide
      · simpa only [f, if_neg hc] using other
  exact ⟨keeps, scan_map keeps source⟩

end LoxLexer
