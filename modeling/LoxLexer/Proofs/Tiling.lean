import LoxLexer.Proofs.LongestMatch

namespace LoxLexer

def Item.token? : Item → Option Token
  | .token t => some t
  | .fault _ => none

inductive Spans : Text → Option Item → Prop
  | token : t.lexeme = text → Spans text (some (.token t))
  | stray : Spans [c] (some (.fault (.lexical line (.unexpectedCharacter c))))
  | unfinished : Unfinished cause text → Spans text (some (.fault (.lexical line cause)))
  | trivia : Trivia text → Spans text none

structure Tiling (source : Text) (ps : List Piece) : Prop where
  joined : ps.flatMap Piece.text = source
  nonempty : ∀ p ∈ ps, p.text ≠ []
  spans : ∀ p ∈ ps, Spans p.text p.item?
  last : ∀ before p after line cause, ps = before ++ p :: after →
    p.item? = some (.fault (.lexical line cause)) →
    cause = .unterminatedString ∨ cause = .unterminatedComment → after = []

inductive Cursor.Yields : Cursor → List Item → Prop
  | nil : c.next.1 = none → Yields c []
  | cons : c.next = (some item, d) → Yields d found → Yields c (item :: found)

variable {line : Nat} {source : Text} {sense : Sense} {ps : List Piece}

theorem Matches.spans {text after : Text} (h : Matches sense text after) (line : Nat) :
    Spans text (sense.item? text line) := by
  cases h with
  | pattern h =>
    cases h with
    | token _ => exact .token rfl
    | trivia h => exact .trivia h
    | unfinished h => exact .unfinished h
  | stray _ => exact .stray

theorem Sense.eq_of_item? {text : Text} {line line' : Nat} {cause : LexicalFault}
    (h : sense.item? text line = some (.fault (.lexical line' cause))) : sense = .fault cause := by
  cases sense with
  | token => simp [item?] at h
  | trivia => simp [item?] at h
  | fault => simp_all [item?]

theorem Cuts.eq_nil (h : Cuts line [] ps) : ps = [] := by
  rw [← h.pieces_eq, pieces_nil]

theorem Cuts.matches_fault {before after : List Piece} {p : Piece}
    (h : Cuts line source (before ++ p :: after)) {line' : Nat} {cause : LexicalFault}
    (item : p.item? = some (.fault (.lexical line' cause))) :
    line' = p.lastLine ∧ Matches (.fault cause) p.text (after.flatMap Piece.text) := by
  rw [p.item?_eq] at item
  have sense := Sense.eq_of_item? item
  rw [sense, Sense.item?, Option.some.injEq, Item.fault.injEq, Fault.lexical.injEq] at item
  exact ⟨item.1.symm, sense ▸ h.cut.fits⟩

theorem Cuts.tiling (h : Cuts line source ps) : Tiling source ps where
  joined := h.flatMap_text
  nonempty := by
    intro p hp
    obtain ⟨after, cut⟩ := h.cut_of_mem hp
    exact cut.ne_nil
  spans := by
    intro p hp
    obtain ⟨after, cut⟩ := h.cut_of_mem hp
    rw [p.item?_eq]
    exact cut.fits.spans p.lastLine
  last := by
    intro before p after line cause split item hc
    subst split
    have fits := (h.matches_fault item).2
    have later := h.rest.cons_inv.2.2
    rw [fits.after_eq_nil hc] at later
    exact later.eq_nil

theorem Cursor.Yields.of_next_eq {c d : Cursor} {found : List Item} (same : c.next = d.next)
    (h : d.Yields found) : c.Yields found := by
  cases h with
  | nil none => exact .nil (same ▸ none)
  | cons next later => exact .cons (same.trans next) later

theorem Cursor.next_cons_of_none {p : Piece} (h : p.item? = none) (ps : List Piece)
    (pending : Array Diagnostic) (lastLine : Nat) :
    next ⟨p :: ps, pending, lastLine⟩ = next ⟨ps, pending ++ p.warnings, lastLine⟩ := by
  rw [next, nextFrom, h]
  rfl

theorem Cursor.next_cons_of_some {p : Piece} {item : Item} (h : p.item? = some item)
    (ps : List Piece) (pending : Array Diagnostic) (lastLine : Nat) :
    next ⟨p :: ps, pending, lastLine⟩ = (some item, ⟨ps, pending ++ p.warnings, lastLine⟩) := by
  rw [next, nextFrom, h]

theorem Cursor.yields_ahead (ps : List Piece) (pending : Array Diagnostic) (lastLine : Nat) :
    Yields ⟨ps, pending, lastLine⟩ (ps.filterMap Piece.item?) := by
  induction ps generalizing pending with
  | nil => exact .nil rfl
  | cons p ps ih =>
    cases hp : p.item? with
    | none =>
      rw [List.filterMap_cons_none hp]
      exact .of_next_eq (next_cons_of_none hp ps pending lastLine) (ih (pending ++ p.warnings))
    | some item =>
      rw [List.filterMap_cons_some hp]
      exact .cons (next_cons_of_some hp ps pending lastLine) (ih (pending ++ p.warnings))

theorem Piece.token?_eq (p : Piece) : p.token? = p.item?.bind Item.token? := by
  obtain ⟨shape, text, line⟩ := p
  cases shape <;> rfl

theorem filterMap_token?_items (ps : List Piece) :
    (ps.filterMap Piece.item?).filterMap Item.token? = ps.filterMap Piece.token? := by
  rw [List.filterMap_filterMap]
  congr 1
  funext p
  exact p.token?_eq.symm

theorem Piece.exists_of_mem_warnings {p : Piece} {d : Diagnostic} (h : d ∈ p.warnings) :
    ∃ line, d = .nestedComment line := by
  rw [warnings] at h
  split at h
  · obtain ⟨line, -, rfl⟩ := List.mem_map.1 h
    exact ⟨line, rfl⟩
  · obtain ⟨line, -, rfl⟩ := List.mem_map.1 h
    exact ⟨line, rfl⟩
  · simp at h

theorem Piece.severity_of_mem_warnings {p : Piece} {d : Diagnostic} (h : d ∈ p.warnings) :
    d.severity = .warning := by
  obtain ⟨line, rfl⟩ := exists_of_mem_warnings h
  rfl

theorem Cuts.wellFormed (h : Cuts line source ps) {p : Piece} (hp : p ∈ ps) {t : Token}
    (ht : p.item? = some (.token t)) :
    WellFormed t.kind t.lexeme t.literal ∧ t.lexeme = p.text ∧ t.line = p.lastLine := by
  obtain ⟨after, cut⟩ := h.cut_of_mem hp
  have fits := cut.fits
  rw [p.item?_eq] at ht
  cases hs : p.shape.sense p.text with
  | token kind literal =>
    rw [hs] at ht fits
    obtain rfl := Item.token.inj (Option.some.inj ht)
    cases fits with
    | pattern h => cases h with | token wf => exact ⟨wf, rfl, rfl⟩
  | trivia => simp [hs, Sense.item?] at ht
  | fault cause => simp [hs, Sense.item?] at ht

/-- No character is lost, none is taken twice, and the tokens of a scan are those that are handed
out one by one, with one end of input behind them. -/
theorem scan_tiles_source (source : Text) :
    Tiling source (pieces 1 source) ∧
      ∃ items line, items = (pieces 1 source).filterMap Piece.item? ∧
        (Cursor.ofSource source).Yields items ∧
        (scan source).tokens = items.filterMap Item.token? ++ [⟨.eof, [], none, line⟩] ∧
        ∀ t, .token t ∈ items → t.kind ≠ .eof := by
  have run := cuts_pieces 1 source
  refine ⟨run.tiling, _, 1 + source.lineFeeds, rfl, Cursor.yields_ahead _ _ _, ?_, ?_⟩
  · rw [filterMap_token?_items]
    rfl
  · intro t ht
    obtain ⟨p, hp, item⟩ := List.mem_filterMap.1 ht
    exact (run.wellFormed hp item).1.kind_ne_eof

end LoxLexer
